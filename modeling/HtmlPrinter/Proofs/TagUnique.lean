import HtmlPrinter.Proofs.TagShape

/-!
# Start tags are unambiguous

Start tags of elements whose attributes are plain strings can be told apart in any text: two such
tags with something behind them that make the same text are of equal elements, closed alike, and
have the same behind them. An attribute may even have an empty name here, since its equals sign is
seen. Each part ends at the first character that cannot belong to it, which `append_unique` uses.
-/

namespace HtmlPrinter

/-- Two parts that end at the first character of another kind can be told apart. -/
theorem append_unique {p : Char → Bool} {u v x y : List Char} (hu : ∀ c ∈ u, p c = true)
    (hv : ∀ c ∈ v, p c = true) (hx : ∀ c ∈ x.head?, p c = false) (hy : ∀ c ∈ y.head?, p c = false)
    (h : u ++ x = v ++ y) : u = v ∧ x = y := by
  have ends : ∀ z : List Char, (∀ c ∈ z.head?, p c = false) → z.takeWhile p = [] := by
    intro z hz
    cases z with
    | nil => rfl
    | cons c z => simp [hz c rfl]
  have same : u = v := by
    have taken := congrArg (List.takeWhile p) h
    rwa [List.takeWhile_append_of_pos hu, List.takeWhile_append_of_pos hv, ends x hx, ends y hy,
      List.append_nil, List.append_nil] at taken
  subst same
  exact ⟨rfl, List.append_cancel_left h⟩

private theorem spaces_append_unique {u v x y : List Char} (hu : ∀ c ∈ u, isSpace c = true)
    (hv : ∀ c ∈ v, isSpace c = true) (hx : ∀ c ∈ x.head?, isSpace c = false)
    (hy : ∀ c ∈ y.head?, isSpace c = false) (h : u ++ x = v ++ y) : x = y :=
  (append_unique hu hv hx hy h).2

/-- Says that a text ends a value without quotes in front of it. -/
def EndsBareValue (text : List Char) : Prop :=
  ∃ c rest, text = c :: rest ∧ isBareValueChar c = false

namespace Config

variable {cfg : Config}

private theorem bare_ne_quoted {v w : String} {x y : List Char} (hv : cfg.leavesUnquoted v = true)
    (hw : ¬ cfg.leavesUnquoted w = true) :
    (cfg.valueText v).text.toList ++ x ≠ (cfg.valueText w).text.toList ++ y := by
  obtain ⟨htext, -, -, c, rest, hvalue, hdouble, hsingle⟩ := valueText_of_leavesUnquoted hv
  intro h
  rw [htext, (valueText_of_not_leavesUnquoted hw).2, hvalue] at h
  have head := (List.cons.inj h).1
  cases hquote : cfg.quote with
  | double => exact hdouble (by rw [head, hquote]; rfl)
  | single => exact hsingle (by rw [head, hquote]; rfl)

private theorem valueText_unique (hent : cfg.entities = ∅) {v w : String} {x y : List Char}
    (hx : (cfg.valueText v).ending = .unquoted → EndsBareValue x)
    (hy : (cfg.valueText w).ending = .unquoted → EndsBareValue y)
    (h : (cfg.valueText v).text.toList ++ x = (cfg.valueText w).text.toList ++ y) :
    v = w ∧ x = y := by
  by_cases hv : cfg.leavesUnquoted v = true <;> by_cases hw : cfg.leavesUnquoted w = true
  · obtain ⟨hvtext, -, hvchars, -⟩ := valueText_of_leavesUnquoted hv
    obtain ⟨hwtext, -, hwchars, -⟩ := valueText_of_leavesUnquoted hw
    obtain ⟨c, restx, hcx, hc⟩ := hx (by rw [hvtext])
    obtain ⟨d, resty, hdy, hd⟩ := hy (by rw [hwtext])
    rw [hvtext, hwtext] at h
    obtain ⟨hvw, hxy⟩ := append_unique hvchars hwchars (by simpa [hcx] using hc)
      (by simpa [hdy] using hd) h
    exact ⟨String.toList_inj.1 hvw, hxy⟩
  · exact absurd h (bare_ne_quoted hv hw)
  · exact absurd h.symm (bare_ne_quoted hw hv)
  · rw [(valueText_of_not_leavesUnquoted hv).2, (valueText_of_not_leavesUnquoted hw).2,
      List.cons_append, List.cons_append, List.append_assoc, List.append_assoc,
      List.singleton_append, List.singleton_append] at h
    have inside : ∀ s : String, ∀ c ∈ ((cfg.escaping cfg.quote.context).escaped s).toList,
        (c != cfg.quote.char) = true := by
      intro s c hc
      rw [bne_iff_ne]
      exact fun hquote => quote_not_mem_escaped hent s (hquote ▸ hc)
    obtain ⟨hvw, hxy⟩ := append_unique (inside v) (inside w) (by simp) (by simp)
      (List.cons.inj h).2
    exact ⟨Escaping.escaped_injective (legible_escaping hent _) (String.toList_inj.1 hvw),
      (List.cons.inj hxy).2⟩

private theorem assignment_unique (hent : cfg.entities = ∅) {n m v w : String} {x y : List Char}
    (hx : (cfg.assignment n v).ending = .unquoted → EndsBareValue x)
    (hy : (cfg.assignment m w).ending = .unquoted → EndsBareValue y)
    (h : (cfg.assignment n v).text.toList ++ x = (cfg.assignment m w).text.toList ++ y) :
    n = m ∧ v = w ∧ x = y := by
  rw [assignment_toList, assignment_toList, List.append_assoc, List.append_assoc,
    List.cons_append, List.cons_append] at h
  have stops : ∀ z : List Char, ∀ c ∈ ('=' :: z).head?, isNameChar c = false := by
    intro z c hc
    cases hc
    decide
  obtain ⟨hname, hrest⟩ := append_unique (fun c hc => isNameChar_of_mem_escaped hent hc)
    (fun c hc => isNameChar_of_mem_escaped hent hc) (stops _) (stops _) h
  have names : n = m := Escaping.escaped_injective (legible_escaping hent .attributeName)
    (String.toList_inj.1 hname)
  exact ⟨names, valueText_unique hent hx hy (List.cons.inj hrest).2⟩

private theorem assignment_head (hent : cfg.entities = ∅) (n v : String) (x : List Char) :
    ∃ c rest, (cfg.assignment n v).text.toList ++ x = c :: rest ∧ isSpace c = false ∧
      c ≠ '/' ∧ c ≠ '>' := by
  rw [assignment_toList, List.append_assoc, List.cons_append]
  cases hname : ((cfg.escaping .attributeName).escaped n).toList with
  | nil => exact ⟨'=', _, rfl, by decide, by decide, by decide⟩
  | cons c cs =>
      have hc : isNameChar c = true :=
        isNameChar_of_mem_escaped hent (hname ▸ List.mem_cons_self)
      obtain ⟨hspace, hslash, hend, -⟩ := isNameChar_iff.1 hc
      exact ⟨c, _, rfl, hspace, hslash, hend⟩

def tightEnd (closed : Bool) : List Char := if closed then ['/', '>'] else ['>']

private theorem tightEnd_head (closed : Bool) (x : List Char) :
    ∃ c rest, tightEnd closed ++ x = c :: rest ∧ isSpace c = false ∧ (c = '/' ∨ c = '>') := by
  cases closed
  · exact ⟨'>', _, rfl, by decide, .inr rfl⟩
  · exact ⟨'/', _, rfl, by decide, .inl rfl⟩

private theorem tightEnd_unique {closed closed' : Bool} {x y : List Char}
    (h : tightEnd closed ++ x = tightEnd closed' ++ y) : closed = closed' ∧ x = y := by
  cases closed <;> cases closed' <;> simp_all [tightEnd]

private theorem tagEnd_toList (closed : Bool) (last : Option Ending) :
    ∃ spaces, (∀ c ∈ spaces, isSpace c = true) ∧
      (cfg.tagEnd closed last).toList = spaces ++ tightEnd closed := by
  cases closed with
  | false => exact ⟨[], by simp, by simp [tagEnd, tightEnd]⟩
  | true =>
      by_cases htight : (cfg.tightSelfClosing && last != some .unquoted) = true
      · exact ⟨[], by simp, by simp [tagEnd, slash, htight, tightEnd]⟩
      · exact ⟨[' '], List.all_eq_true.1 (by decide), by simp [tagEnd, slash, htight, tightEnd]⟩

/-- Writes what follows an attribute, or the tag name, in a start tag. -/
def tagRest (cfg : Config) (stacked closed : Bool) (previous : Option Ending)
    (attrs : List AttributeText) : List Char :=
  (chain (cfg.separator stacked) previous attrs).toList ++
    (cfg.tagEnd closed (lastEnding previous attrs)).toList

theorem startTag_toList_tagRest (cfg : Config) (dialect : Dialect) (e : Element) :
    ∃ stacked, (cfg.startTag dialect e).toList = '<' :: (e.tag.toList ++
      cfg.tagRest stacked (cfg.selfCloses dialect e) none (cfg.attributeTexts dialect e)) :=
  cfg.startTag_toList dialect e

private theorem tagRest_nil (stacked closed : Bool) (previous : Option Ending) :
    cfg.tagRest stacked closed previous [] = (cfg.tagEnd closed previous).toList := by
  simp [tagRest, chain, lastEnding]

private theorem tagRest_cons (stacked closed : Bool) (previous : Option Ending)
    (attr : AttributeText) (attrs : List AttributeText) :
    cfg.tagRest stacked closed previous (attr :: attrs) =
      (cfg.separator stacked previous).toList ++
        (attr.text.toList ++ cfg.tagRest stacked closed (some attr.ending) attrs) := by
  simp [tagRest, chain, lastEnding]

private theorem endsBareValue_tagRest
    (hindent : ∀ c ∈ cfg.customElementIndent.toList, isSpace c = true)
    (stacked closed : Bool) (attrs : List AttributeText) (r : List Char) :
    EndsBareValue (cfg.tagRest stacked closed (some .unquoted) attrs ++ r) := by
  cases attrs with
  | nil =>
      rw [tagRest_nil]
      cases closed
      · exact ⟨'>', r, by simp [tagEnd], by decide⟩
      · exact ⟨' ', '/' :: '>' :: r, by simp [tagEnd, slash], by decide⟩
  | cons attr attrs =>
      rw [tagRest_cons]
      cases hsep : (cfg.separator stacked (some .unquoted)).toList with
      | nil =>
          exact absurd (String.toList_eq_nil_iff.1 hsep) (separator_ne_empty (by decide))
      | cons c cs =>
          have space := isSpace_of_mem_separator hindent (hsep ▸ List.mem_cons_self)
          exact ⟨c, _, rfl, by simp [isBareValueChar, space]⟩

private theorem tagRest_cons_ne_nil (hent : cfg.entities = ∅)
    (hindent : ∀ c ∈ cfg.customElementIndent.toList, isSpace c = true)
    {stacked stacked' closed closed' : Bool} {previous previous' : Option Ending} {n v : String}
    {attrs : List AttributeText} {r r' : List Char} :
    cfg.tagRest stacked closed previous (cfg.assignment n v :: attrs) ++ r ≠
      cfg.tagRest stacked' closed' previous' [] ++ r' := by
  obtain ⟨spaces, hspaces, htagEnd⟩ := cfg.tagEnd_toList closed' previous'
  obtain ⟨c, x, hattr, hc, hslash, hend⟩ := assignment_head hent n v
    (cfg.tagRest stacked closed (some (cfg.assignment n v).ending) attrs ++ r)
  obtain ⟨d, y, htight, hd, hstop⟩ := tightEnd_head closed' r'
  intro h
  rw [tagRest_cons, tagRest_nil, htagEnd, List.append_assoc, List.append_assoc, List.append_assoc,
    hattr, htight] at h
  have same := spaces_append_unique (fun c hc => isSpace_of_mem_separator hindent hc) hspaces
    (by simpa using hc) (by simpa using hd) h
  obtain ⟨rfl, -⟩ := List.cons.inj same
  rcases hstop with rfl | rfl
  · exact hslash rfl
  · exact hend rfl

theorem tagRest_unique (hent : cfg.entities = ∅)
    (hindent : ∀ c ∈ cfg.customElementIndent.toList, isSpace c = true)
    {stacked stacked' closed closed' : Bool} {previous previous' : Option Ending}
    {ps qs : List (String × String)} {r r' : List Char}
    (h : cfg.tagRest stacked closed previous (ps.map fun p => cfg.assignment p.1 p.2) ++ r =
      cfg.tagRest stacked' closed' previous' (qs.map fun q => cfg.assignment q.1 q.2) ++ r') :
    ps = qs ∧ closed = closed' ∧ r = r' := by
  induction ps generalizing qs previous previous' with
  | nil =>
      cases qs with
      | nil =>
          obtain ⟨spaces, hspaces, htagEnd⟩ := cfg.tagEnd_toList closed previous
          obtain ⟨spaces', hspaces', htagEnd'⟩ := cfg.tagEnd_toList closed' previous'
          obtain ⟨c, x, hx, hc, -⟩ := tightEnd_head closed r
          obtain ⟨d, y, hy, hd, -⟩ := tightEnd_head closed' r'
          rw [List.map_nil, tagRest_nil, tagRest_nil, htagEnd, htagEnd', List.append_assoc,
            List.append_assoc] at h
          have same := spaces_append_unique hspaces hspaces' (by simpa [hx] using hc)
            (by simpa [hy] using hd) h
          exact ⟨rfl, tightEnd_unique same⟩
      | cons q qs => exact absurd h.symm (tagRest_cons_ne_nil hent hindent)
  | cons p ps ih =>
      cases qs with
      | nil => exact absurd h (tagRest_cons_ne_nil hent hindent)
      | cons q qs =>
          rw [List.map_cons, List.map_cons, tagRest_cons, tagRest_cons, List.append_assoc,
            List.append_assoc, List.append_assoc, List.append_assoc] at h
          obtain ⟨c, x, hx, hc, -⟩ := assignment_head hent p.1 p.2
            (cfg.tagRest stacked closed (some (cfg.assignment p.1 p.2).ending)
              (ps.map fun p => cfg.assignment p.1 p.2) ++ r)
          obtain ⟨d, y, hy, hd, -⟩ := assignment_head hent q.1 q.2
            (cfg.tagRest stacked' closed' (some (cfg.assignment q.1 q.2).ending)
              (qs.map fun q => cfg.assignment q.1 q.2) ++ r')
          have attrs := spaces_append_unique (fun c hc => isSpace_of_mem_separator hindent hc)
            (fun c hc => isSpace_of_mem_separator hindent hc) (by simpa [hx] using hc)
            (by simpa [hy] using hd) h
          obtain ⟨hname, hvalue, hrest⟩ := assignment_unique hent
            (fun hbare => hbare ▸ endsBareValue_tagRest hindent _ _ _ _)
            (fun hbare => hbare ▸ endsBareValue_tagRest hindent _ _ _ _) attrs
          obtain ⟨hps, hclosed, hr⟩ := ih hrest
          exact ⟨by rw [Prod.ext hname hvalue, hps], hclosed, hr⟩

end Config

def Attributes.isPlain (attrs : Attributes) : Bool :=
  attrs.entries.all fun entry => entry.2.text?.isSome

private theorem Attributes.exists_pairs {attrs : Attributes} (h : attrs.isPlain = true) :
    ∃ pairs : List (String × String),
      attrs.entries = pairs.map fun pair => (pair.1, .text pair.2) := by
  rw [isPlain, List.all_eq_true] at h
  generalize attrs.entries = entries at h ⊢
  induction entries with
  | nil => exact ⟨[], rfl⟩
  | cons entry entries ih =>
      obtain ⟨pairs, hpairs⟩ := ih fun e he => h e (List.mem_cons_of_mem entry he)
      obtain ⟨name, value⟩ := entry
      have plain := h (name, value) List.mem_cons_self
      cases value with
      | text content =>
          exact ⟨(name, content) :: pairs, congrArg ((name, .text content) :: ·) hpairs⟩
      | _ => simp [Value.text?] at plain

def isTagName (tag : String) : Bool := !tag.isEmpty && tag.toList.all isTagChar

theorem isTagChar_of_mem {tag : String} (h : isTagName tag = true) {c : Char}
    (hc : c ∈ tag.toList) : isTagChar c = true := by
  rw [isTagName, Bool.and_eq_true, List.all_eq_true] at h
  exact h.2 c hc

/-- A tag name ends where another character comes. -/
theorem tagName_unique {tag tag' : String} (htag : isTagName tag = true)
    (htag' : isTagName tag' = true) {x y : List Char} (hx : ∀ c ∈ x.head?, isTagChar c = false)
    (hy : ∀ c ∈ y.head?, isTagChar c = false) (h : tag.toList ++ x = tag'.toList ++ y) :
    tag = tag' ∧ x = y := by
  obtain ⟨same, hxy⟩ := append_unique (fun _ hc => isTagChar_of_mem htag hc)
    (fun _ hc => isTagChar_of_mem htag' hc) hx hy h
  exact ⟨String.toList_inj.1 same, hxy⟩

namespace Config

variable {cfg : Config}

private theorem attributeTexts_of_pairs {dialect : Dialect} {e : Element}
    {pairs : List (String × String)}
    (h : e.attrs.entries = pairs.map fun pair => (pair.1, .text pair.2)) :
    cfg.attributeTexts dialect e = pairs.map fun pair => cfg.assignment pair.1 pair.2 := by
  rw [attributeTexts, h, List.filterMap_map, ← List.filterMap_eq_map]
  rfl

theorem tagRest_starts (stacked closed : Bool) (attrs : List AttributeText) (r : List Char) :
    ∃ c rest, cfg.tagRest stacked closed none attrs ++ r = c :: rest ∧
      c ∈ [' ', '\n', '/', '>'] := by
  cases attrs with
  | nil =>
      rw [tagRest_nil, tagEnd]
      cases closed with
      | false => exact ⟨'>', r, by simp, by decide⟩
      | true =>
          by_cases htight : cfg.tightSelfClosing = true
          · exact ⟨'/', '>' :: r, by simp [slash, htight], by decide⟩
          · exact ⟨' ', '/' :: '>' :: r, by simp [slash, htight], by decide⟩
  | cons attr attrs =>
      rw [tagRest_cons]
      cases stacked with
      | false =>
          refine ⟨' ', attr.text.toList ++ cfg.tagRest false closed (some attr.ending) attrs ++ r,
            ?_, by decide⟩
          simp [separator]
      | true =>
          refine ⟨'\n', cfg.customElementIndent.toList ++
            (attr.text.toList ++ cfg.tagRest true closed (some attr.ending) attrs) ++ r, ?_,
            by decide⟩
          simp [separator]

theorem tagRest_head (stacked closed : Bool) (attrs : List AttributeText) (r : List Char) :
    ∀ c ∈ (cfg.tagRest stacked closed none attrs ++ r).head?, isTagChar c = false := by
  obtain ⟨c, rest, hrest, hc⟩ := @tagRest_starts cfg stacked closed attrs r
  have table : [' ', '\n', '/', '>'].all (!isTagChar ·) = true := by decide
  rw [hrest]
  rintro d ⟨⟩
  simpa using List.all_eq_true.1 table c hc

/-- Start tags of elements with plain attributes can be told apart. -/
theorem startTag_unique (hent : cfg.entities = ∅)
    (hindent : ∀ c ∈ cfg.customElementIndent.toList, isSpace c = true) {dialect dialect' : Dialect}
    {e e' : Element} (htag : isTagName e.tag = true) (htag' : isTagName e'.tag = true)
    (hplain : e.attrs.isPlain = true) (hplain' : e'.attrs.isPlain = true) {r r' : List Char}
    (h : (cfg.startTag dialect e).toList ++ r = (cfg.startTag dialect' e').toList ++ r') :
    e.tag = e'.tag ∧ e.attrs = e'.attrs ∧
      cfg.selfCloses dialect e = cfg.selfCloses dialect' e' ∧ r = r' := by
  obtain ⟨pairs, hpairs⟩ := Attributes.exists_pairs hplain
  obtain ⟨pairs', hpairs'⟩ := Attributes.exists_pairs hplain'
  obtain ⟨stacked, htext⟩ := cfg.startTag_toList_tagRest dialect e
  obtain ⟨stacked', htext'⟩ := cfg.startTag_toList_tagRest dialect' e'
  rw [attributeTexts_of_pairs hpairs] at htext
  rw [attributeTexts_of_pairs hpairs'] at htext'
  rw [htext, htext', List.cons_append, List.cons_append, List.append_assoc, List.append_assoc] at h
  obtain ⟨hsame, hrest⟩ := tagName_unique htag htag' (tagRest_head _ _ _ _)
    (tagRest_head _ _ _ _) (List.cons.inj h).2
  obtain ⟨rfl, hclosed, hr⟩ := tagRest_unique hent hindent hrest
  refine ⟨hsame, ?_, hclosed, hr⟩
  exact OrderedMap.ext (hpairs.trans hpairs'.symm)

end Config

end HtmlPrinter
