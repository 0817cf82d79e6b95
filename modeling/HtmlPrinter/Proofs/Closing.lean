import HtmlPrinter.Proofs.ReadableTrees

/-!
# What stands behind siblings

A reader sees from the first characters of a text what kind of node comes next, which `lead` says.
Behind the last of some siblings stands what `Closes` allows: nothing, an end tag, or a start tag in
front of which an element that is still open has lost its end tag. The open elements are those
from the innermost one outwards up to the first that always has an end tag.
-/

namespace HtmlPrinter

/-- Names what a text starts with. -/
inductive Lead where
  | nothing
  | text
  | comment
  | doctype
  | startTag
  | endTag
deriving DecidableEq

def lead : List Char → Lead
  | [] => .nothing
  | c :: rest =>
      if c ≠ '<' then .text
      else if rest.head? = some '/' then .endTag
      else if rest.head? ≠ some '!' then .startTag
      else if rest[1]? = some '-' then .comment
      else .doctype

def Node.lead : Node → Lead
  | .element _ => .startTag
  | .text _ => .text
  | .comment _ => .comment
  | .doctype _ => .doctype
  | .root _ | .raw _ => .nothing

theorem lead_tagName {tag : String} (htag : isTagName tag = true) (x : List Char) :
    lead ('<' :: (tag.toList ++ x)) = .startTag := by
  cases hchars : tag.toList with
  | nil =>
      rw [String.toList_eq_nil_iff] at hchars
      subst hchars
      cases htag
  | cons c cs =>
      have hc : isTagChar c = true := isTagChar_of_mem htag (hchars ▸ List.mem_cons_self)
      have table : isTagChar '/' = false ∧ isTagChar '!' = false := by decide
      have slash : c ≠ '/' := fun h => by simp [h, table.1] at hc
      have mark : c ≠ '!' := fun h => by simp [h, table.2] at hc
      simp [lead, slash, mark]

theorem head?_of_lead_ne_text {x : List Char} (h : lead x ≠ .text) : ∀ c ∈ x.head?, c = '<' := by
  cases x with
  | nil => simp
  | cons c rest =>
      intro d hd
      cases hd
      by_contra hc
      exact h (by simp [lead, hc])

/-- Says that a text starts with the start tag of an element that follows an open one. -/
def StartsBehind (opened : List String) (x : List Char) : Prop :=
  ∃ tag rest, x = '<' :: (tag.toList ++ rest) ∧ isTagName tag = true ∧
    (∀ c ∈ rest.head?, isTagChar c = false) ∧ ∃ o ∈ opened, nameIn tag (followers o) = true

/-- Says that a text can stand behind siblings: it is empty, or starts with an end tag, or, where
end tags are left out, with a start tag that closes an open element. -/
inductive Closes (omitting : Bool) (opened : List String) : List Char → Prop where
  | nothing : Closes omitting opened []
  | endTag {tag : String} (rest : List Char) (htag : isTagName tag = true)
      (hopen : omitting = true → isRuled tag = true → tag ∈ opened) :
      Closes omitting opened ('<' :: '/' :: (tag.toList ++ '>' :: rest))
  | startTag {x : List Char} (homits : omitting = true) (hstarts : StartsBehind opened x) :
      Closes omitting opened x

theorem StartsBehind.lead_eq {opened : List String} {x : List Char} (h : StartsBehind opened x) :
    lead x = .startTag := by
  obtain ⟨tag, rest, rfl, htag, -⟩ := h
  exact lead_tagName htag rest

theorem StartsBehind.mono {opened opened' : List String} (hsub : opened ⊆ opened') {x : List Char}
    (h : StartsBehind opened x) : StartsBehind opened' x := by
  obtain ⟨tag, rest, hx, htag, hrest, o, ho, hfollows⟩ := h
  exact ⟨tag, rest, hx, htag, hrest, o, hsub ho, hfollows⟩

namespace Closes

variable {omitting : Bool} {opened opened' : List String} {x : List Char}

theorem mono (hsub : opened ⊆ opened') (h : Closes omitting opened x) :
    Closes omitting opened' x := by
  cases h with
  | nothing => exact .nothing
  | endTag rest htag hopen =>
      exact .endTag rest htag fun homits hruled => hsub (hopen homits hruled)
  | startTag homits hstarts => exact .startTag homits (hstarts.mono hsub)

theorem lead_eq (h : Closes omitting opened x) :
    lead x = .nothing ∨ lead x = .endTag ∨ lead x = .startTag := by
  cases h with
  | nothing => exact .inl rfl
  | endTag rest htag hopen => exact .inr (.inl (by simp [lead]))
  | startTag homits hstarts => exact .inr (.inr hstarts.lead_eq)

theorem lead_ne_text (h : Closes omitting opened x) : lead x ≠ .text := by
  intro htext
  rcases h.lead_eq with hlead | hlead | hlead <;> rw [htext] at hlead <;> cases hlead

theorem startsBehind_of_lead (h : Closes omitting opened x) (hlead : lead x = .startTag) :
    omitting = true ∧ StartsBehind opened x := by
  cases h with
  | nothing => cases hlead
  | endTag rest htag hopen => simp [lead] at hlead
  | startTag homits hstarts => exact ⟨homits, hstarts⟩

theorem mem_of_endTag {tag : String} {rest : List Char} (htag : isTagName tag = true)
    (hruled : isRuled tag = true) (homits : omitting = true)
    (h : Closes omitting opened ('<' :: '/' :: (tag.toList ++ '>' :: rest))) : tag ∈ opened := by
  generalize htext : '<' :: '/' :: (tag.toList ++ '>' :: rest) = text at h
  cases h with
  | nothing => cases htext
  | @endTag tag' rest' htag' hopen =>
      have stops : ∀ z : List Char, ∀ c ∈ ('>' :: z).head?, isTagChar c = false := by
        intro z c hc
        cases hc
        decide
      obtain ⟨rfl, -⟩ := tagName_unique htag htag' (stops rest) (stops rest')
        (List.cons.inj (List.cons.inj htext).2).2
      exact hopen homits hruled
  | startTag homits' hstarts =>
      have := hstarts.lead_eq
      rw [← htext] at this
      simp [lead] at this

end Closes

/-- A comment ends at the first `-->`. -/
theorem comment_unique {u v x y : List Char} (hu : ¬ ['-', '-', '>'] <:+: u)
    (hv : ¬ ['-', '-', '>'] <:+: v)
    (h : u ++ '-' :: '-' :: '>' :: x = v ++ '-' :: '-' :: '>' :: y) :
    u = v ∧ x = y := by
  -- the longer of the two would hold the `-->` behind the shorter one
  have nested : ∀ {u d z w : List Char}, ¬ ['-', '-', '>'] <:+: u ++ d →
      '-' :: '-' :: '>' :: z = d ++ '-' :: '-' :: '>' :: w → d = [] := by
    intro u d z w hinfix hd
    match d with
    | [] => rfl
    | [a] => simp at hd
    | [a, b] => simp at hd
    | a :: b :: c :: d =>
        simp only [List.cons_append, List.cons.injEq] at hd
        obtain ⟨rfl, rfl, rfl, -⟩ := hd
        exact absurd ⟨u, d, by simp⟩ hinfix
  rcases List.append_eq_append_iff.1 h with ⟨d, rfl, hd⟩ | ⟨d, rfl, hd⟩
  · obtain rfl := nested hv hd
    simpa using hd
  · obtain rfl := nested hu hd
    simpa using hd.symm

end HtmlPrinter
