import HtmlPrinter.Proofs.LetterCase
import HtmlPrinter.Proofs.SiblingMarkup

/-!
# What the script guard keeps out

The guard looks at one text at a time. `holdsEndTag_flatMap_guardedList` says what it does for texts
that are printed behind each other: an end tag that stands in one of them is broken up, and one
that starts in a text and is completed by later ones is not. Nothing else can end the content of a
script, which `holdsEndTag_script_iff` says of whole elements.
-/

namespace HtmlPrinter

namespace ScriptGuard

/-- Says that a text starts with `</script`, up to the case of ASCII letters. -/
def OpensEndTag (cs : List Char) : Prop := endTagMark <+: cs.map Char.toLower

/-- Says that `</script` stands somewhere in a text, up to the case of ASCII letters. -/
def HoldsEndTag (cs : List Char) : Prop := endTagMark <:+: cs.map Char.toLower

instance (cs : List Char) : Decidable (OpensEndTag cs) :=
  inferInstanceAs (Decidable (endTagMark <+: cs.map Char.toLower))

/-- Says that one of some texts starts an end tag which only later ones complete. -/
inductive SplitsEndTag : List (List Char) → Prop where
  | here {text tail : List Char} {rest : List (List Char)} (htail : tail <:+ text)
      (hne : tail ≠ []) (hopen : ¬ OpensEndTag tail) (hends : OpensEndTag (tail ++ rest.flatten)) :
      SplitsEndTag (text :: rest)
  | later {text : List Char} {rest : List (List Char)} (h : SplitsEndTag rest) :
      SplitsEndTag (text :: rest)

theorem opensEndTag_cons {c : Char} {cs : List Char} :
    OpensEndTag (c :: cs) ↔ c = '<' ∧ endTagMark.tail <+: cs.map Char.toLower := by
  have bracket : ('<' : Char).isAlpha = false := by decide
  rw [OpensEndTag, List.map_cons, endTagMark, List.cons_prefix_cons, eq_comm,
    toLower_eq_iff bracket]
  rfl

private theorem startsEndTag_iff {cs : List Char} : startsEndTag cs = true ↔ OpensEndTag cs := by
  cases cs with
  | nil => decide
  | cons c rest =>
      rw [opensEndTag_cons, startsEndTag, Bool.and_eq_true, beq_iff_eq, beq_iff_eq,
        List.prefix_iff_eq_take, List.map_take, eq_comm (a := List.take 7 _)]
      rfl

theorem guardedList_of_opensEndTag {c : Char} {cs : List Char} (h : OpensEndTag (c :: cs)) :
    guardedList (c :: cs) = c :: '\\' :: guardedList cs := by
  rw [guardedList, if_pos (startsEndTag_iff.2 h)]

theorem guardedList_of_not_opensEndTag {c : Char} {cs : List Char} (h : ¬ OpensEndTag (c :: cs)) :
    guardedList (c :: cs) = c :: guardedList cs := by
  rw [guardedList, if_neg fun hstarts => h (startsEndTag_iff.1 hstarts)]

private theorem holdsEndTag_cons {c : Char} {cs : List Char} :
    HoldsEndTag (c :: cs) ↔ OpensEndTag (c :: cs) ∨ HoldsEndTag cs :=
  List.infix_cons_iff

/-- Says that two texts start with the same letters, if they start with letters: what stands behind
the first bracket in each does not count. -/
def AgreeToBracket (x y : List Char) : Prop :=
  ∀ p : List Char, '<' ∉ p → (p <+: x.map Char.toLower ↔ p <+: y.map Char.toLower)

private theorem agreeToBracket_guardedList {x y : List Char} (h : AgreeToBracket x y)
    (cs : List Char) : AgreeToBracket (guardedList cs ++ x) (cs ++ y) := by
  induction cs with
  | nil => exact h
  | cons c cs ih =>
      intro p hp
      by_cases hopens : OpensEndTag (c :: cs)
      · -- a backslash stands behind a bracket only
        obtain rfl := (opensEndTag_cons.1 hopens).1
        rw [guardedList_of_opensEndTag hopens]
        cases p with
        | nil => simp
        | cons d p =>
            have hd : d ≠ '<' := fun hd => hp (hd ▸ List.mem_cons_self)
            have kept : Char.toLower '<' = '<' := by decide
            simp [List.cons_prefix_cons, kept, hd]
      · rw [guardedList_of_not_opensEndTag hopens]
        cases p with
        | nil => simp
        | cons d p =>
            have rest := ih p fun hmem => hp (List.mem_cons_of_mem d hmem)
            simp only [List.cons_append, List.map_cons, List.cons_prefix_cons, rest]

private theorem agreeToBracket_flatMap (texts : List (List Char)) :
    AgreeToBracket (texts.flatMap guardedList) texts.flatten := by
  induction texts with
  | nil => exact fun p _ => Iff.rfl
  | cons text rest ih =>
      rw [List.flatMap_cons, List.flatten_cons]
      exact agreeToBracket_guardedList ih text

private theorem splitsEndTag_nil_cons {rest : List (List Char)} :
    SplitsEndTag ([] :: rest) ↔ SplitsEndTag rest := by
  constructor
  · intro h
    cases h with
    | here htail hne => exact absurd (List.suffix_nil.1 htail) hne
    | later h => exact h
  · exact SplitsEndTag.later

private theorem splitsEndTag_cons_cons {c : Char} {cs : List Char} {rest : List (List Char)} :
    SplitsEndTag ((c :: cs) :: rest) ↔
      (¬ OpensEndTag (c :: cs) ∧ OpensEndTag (c :: cs ++ rest.flatten)) ∨
        SplitsEndTag (cs :: rest) := by
  constructor
  · intro h
    cases h with
    | here htail hne hopen hends =>
        rcases List.suffix_cons_iff.1 htail with rfl | htail
        · exact .inl ⟨hopen, hends⟩
        · exact .inr (.here htail hne hopen hends)
    | later h => exact .inr (.later h)
  · rintro (⟨hopen, hends⟩ | h)
    · exact .here List.suffix_rfl (List.cons_ne_nil c cs) hopen hends
    · cases h with
      | here htail hne hopen hends =>
          exact .here (htail.trans (List.suffix_cons c cs)) hne hopen hends
      | later h => exact .later h

/-- Texts that are guarded one by one hold an end tag together exactly if one of them starts it and
later ones complete it. -/
theorem holdsEndTag_flatMap_guardedList (texts : List (List Char)) :
    HoldsEndTag (texts.flatMap guardedList) ↔ SplitsEndTag texts := by
  induction texts with
  | nil =>
      constructor
      · intro h
        cases List.infix_nil.1 h
      · nofun
  | cons text rest ih =>
      rw [List.flatMap_cons]
      induction text with
      | nil => rw [splitsEndTag_nil_cons, ← ih]; rfl
      | cons c cs ihtext =>
          rw [splitsEndTag_cons_cons]
          by_cases hopens : OpensEndTag (c :: cs)
          · -- the backslash breaks up the end tag that starts here
            obtain rfl := (opensEndTag_cons.1 hopens).1
            have broken : ∀ x, ¬ OpensEndTag ('<' :: '\\' :: x) ∧ ¬ OpensEndTag ('\\' :: x) := by
              intro x
              simp [OpensEndTag, endTagMark, List.cons_prefix_cons]
            rw [guardedList_of_opensEndTag hopens, List.cons_append, List.cons_append,
              holdsEndTag_cons, holdsEndTag_cons, ihtext]
            simp only [broken, hopens, not_true_eq_false, false_and, false_or]
          · have tail : OpensEndTag (c :: (guardedList cs ++ rest.flatMap guardedList)) ↔
                OpensEndTag (c :: (cs ++ rest.flatten)) := by
              rw [opensEndTag_cons, opensEndTag_cons]
              exact and_congr_right fun _ =>
                agreeToBracket_guardedList (agreeToBracket_flatMap rest) cs _ (by decide)
            rw [guardedList_of_not_opensEndTag hopens, List.cons_append, holdsEndTag_cons, tail,
              ihtext]
            simp only [hopens, not_false_eq_true, true_and, List.cons_append]

end ScriptGuard

namespace Config

variable {cfg : Config} {dialect : Dialect}

private theorem markupFrom_texts {tag : String} (hguards : cfg.guardsText tag = true)
    (siblings : List Node) (index : Nat) (texts : List String) :
    (cfg.markupFrom dialect (some tag) siblings index (texts.map .text)).toList =
      (texts.map String.toList).flatMap ScriptGuard.guardedList := by
  induction texts generalizing index with
  | nil => rfl
  | cons text rest ih =>
      rw [List.map_cons, markupFrom_cons, String.toList_append, ih, List.map_cons,
        List.flatMap_cons]
      simp [markup, pieces, piecesText, pieceText, hguards, ScriptGuard.guarded]

/-- Between the tags of a script whose content is guarded text, an end tag stands exactly if it is
split: one of the texts starts it and later ones complete it. -/
theorem holdsEndTag_script_iff {e : Element} {place : Place} {texts : List String}
    (hescape : cfg.escapeScriptEndTags = true) (htag : sameName e.tag "script" = true)
    (hleaf : cfg.isLeaf (dialect.enter e.tag) e = false)
    (htexts : e.children = texts.map .text) :
    ∃ content : String,
      cfg.markup dialect place (.element e) =
        cfg.startTag (dialect.enter e.tag) e ++ content ++ endTag e.tag ∧
      (ScriptGuard.HoldsEndTag content.toList ↔
        ScriptGuard.SplitsEndTag (texts.map String.toList)) := by
  have hstart : startRule? e.tag = none := by
    rw [startRule?_congr htag]
    decide
  have hend : endRule? e.tag = none := by
    rw [endRule?_congr htag]
    decide
  have guards : cfg.guardsText e.tag = true := by
    rw [guardsText, hescape, htag]
    rfl
  refine ⟨_, markup_element_of_unruled hstart hend hleaf, ?_⟩
  rw [htexts, markupFrom_texts guards]
  exact ScriptGuard.holdsEndTag_flatMap_guardedList _

theorem holdsEndTag_script_iff_split :
    let e : Element := ⟨"SCRIPT", ∅, [.text "a</script>b<", .text "/Script>"]⟩
    let markup := ({} : Config).markup .html .detached (.element e)
    markup = "<SCRIPT>a<\\/script>b</Script></SCRIPT>" ∧
      ∃ content : String, markup = "<SCRIPT>" ++ content ++ "</SCRIPT>" ∧
        ScriptGuard.HoldsEndTag content.toList := by
  intro e markup
  refine ⟨by decide +kernel, ?_⟩
  obtain ⟨content, hmarkup, hiff⟩ := @holdsEndTag_script_iff {} .html e .detached
    ["a</script>b<", "/Script>"] rfl (by decide) (by decide) rfl
  have tags : ({} : Config).startTag (Dialect.html.enter e.tag) e = "<SCRIPT>" ∧
      endTag e.tag = "</SCRIPT>" := by
    decide +kernel
  rw [tags.1, tags.2] at hmarkup
  refine ⟨content, hmarkup, hiff.2 ?_⟩
  exact @ScriptGuard.SplitsEndTag.here _ ['<'] _ (by decide) (by decide) (by decide) (by decide)

end Config

end HtmlPrinter
