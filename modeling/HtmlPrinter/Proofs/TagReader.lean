import HtmlPrinter.Proofs.TagShape
import Mathlib.Data.List.Forall2

/-!
# Reading start tags

A reader of start tags takes one character at a time and is in one of the tokenizer's attribute
states. It keeps names and values in the case in which they are written, keeps attributes that
repeat a name, and reads references in values only. `read_startTag` says that it reads a written
start tag as the attributes the tag was written from.
-/

namespace HtmlPrinter

structure ReadTag where
  tag : String
  attrs : List (String × String) := []
  selfClosing : Bool := false
deriving DecidableEq, Repr

/-- Names the states of the reader inside a start tag, with what is read of an attribute. -/
inductive TagState where
  | tagName
  | beforeName
  | name (name : List Char)
  | afterName (name : List Char)
  | beforeValue (name : List Char)
  | quoted (quote : Char) (name value : List Char)
  | unquoted (name value : List Char)
  | afterQuoted
  | slash
deriving DecidableEq, Repr

inductive TagStep where
  | next (state : TagState) (read : ReadTag)
  | done (read : ReadTag)
deriving DecidableEq, Repr

namespace ReadTag

def withAttr (read : ReadTag) (name value : List Char) : ReadTag :=
  let content := Entities.decode ∅ value
  { read with attrs := read.attrs ++ [(String.ofList name, String.ofList content)] }

def startAttr (read : ReadTag) (c : Char) : TagStep :=
  if isSpace c then .next .beforeName read
  else if c = '/' then .next .slash read
  else if c = '>' then .done read
  else .next (.name [c]) read

/-- Reads one character of a start tag. -/
def step (read : ReadTag) (state : TagState) (c : Char) : TagStep :=
  match state with
  | .tagName =>
      if isSpace c then .next .beforeName read
      else if c = '/' then .next .slash read
      else if c = '>' then .done read
      else .next .tagName { read with tag := read.tag.push c }
  | .beforeName => read.startAttr c
  | .name name =>
      if isSpace c then .next (.afterName name) read
      else if c = '/' then .next .slash (read.withAttr name [])
      else if c = '>' then .done (read.withAttr name [])
      else if c = '=' then .next (.beforeValue name) read
      else .next (.name (name ++ [c])) read
  | .afterName name =>
      if isSpace c then .next (.afterName name) read
      else if c = '/' then .next .slash (read.withAttr name [])
      else if c = '>' then .done (read.withAttr name [])
      else if c = '=' then .next (.beforeValue name) read
      else .next (.name [c]) (read.withAttr name [])
  | .beforeValue name =>
      if isSpace c then .next (.beforeValue name) read
      else if c = '"' ∨ c = '\x27' then .next (.quoted c name []) read
      else if c = '>' then .done (read.withAttr name [])
      else .next (.unquoted name [c]) read
  | .quoted quote name value =>
      if c = quote then .next .afterQuoted (read.withAttr name value)
      else .next (.quoted quote name (value ++ [c])) read
  | .unquoted name value =>
      if isSpace c then .next .beforeName (read.withAttr name value)
      else if c = '>' then .done (read.withAttr name value)
      else .next (.unquoted name (value ++ [c])) read
  | .afterQuoted => read.startAttr c
  | .slash =>
      if c = '>' then .done { read with selfClosing := true }
      else read.startAttr c

/-- Reads up to the end of a start tag; gives the tag and what follows it. -/
def readFrom (read : ReadTag) (state : TagState) : List Char → Option (ReadTag × List Char)
  | [] => none
  | c :: rest =>
      match read.step state c with
      | .next state read => read.readFrom state rest
      | .done read => some (read, rest)

end ReadTag

def readStartTag : List Char → Option (ReadTag × List Char)
  | '<' :: c :: rest =>
      if c.isAlpha then ReadTag.readFrom { tag := String.ofList [c] } .tagName rest else none
  | _ => none

namespace ReadTag

variable {read : ReadTag} {state : TagState} {name value cs rest : List Char} {c : Char}

private theorem readFrom_cons_next {state' : TagState} {read' : ReadTag}
    (h : read.step state c = .next state' read') :
    read.readFrom state (c :: rest) = read'.readFrom state' rest := by
  rw [readFrom, h]

private theorem readFrom_cons_done {read' : ReadTag} (h : read.step state c = .done read') :
    read.readFrom state (c :: rest) = some (read', rest) := by
  rw [readFrom, h]

private theorem readFrom_tagName (h : ∀ c ∈ cs, isTagChar c = true) :
    read.readFrom .tagName (cs ++ rest) =
      ReadTag.readFrom { read with tag := read.tag ++ String.ofList cs } .tagName rest := by
  induction cs generalizing read with
  | nil => simp
  | cons c cs ih =>
      obtain ⟨hspace, hslash, hend, -⟩ :=
        isNameChar_iff.1 (isNameChar_of_isTagChar (h c List.mem_cons_self))
      have taken : read.step .tagName c = .next .tagName { read with tag := read.tag.push c } := by
        simp [step, hspace, hslash, hend]
      have pushed : read.tag.push c ++ String.ofList cs = read.tag ++ String.ofList (c :: cs) := by
        rw [← String.toList_inj]
        simp
      rw [List.cons_append, readFrom_cons_next taken,
        ih fun d hd => h d (List.mem_cons_of_mem c hd)]
      simp only [pushed]

private theorem readFrom_name (h : ∀ c ∈ cs, isNameChar c = true) :
    read.readFrom (.name name) (cs ++ rest) = read.readFrom (.name (name ++ cs)) rest := by
  induction cs generalizing name with
  | nil => simp
  | cons c cs ih =>
      obtain ⟨hspace, hslash, hend, hequals⟩ := isNameChar_iff.1 (h c List.mem_cons_self)
      have taken : read.step (.name name) c = .next (.name (name ++ [c])) read := by
        simp [step, hspace, hslash, hend, hequals]
      rw [List.cons_append, readFrom_cons_next taken,
        ih fun d hd => h d (List.mem_cons_of_mem c hd), List.append_assoc, List.singleton_append]

private theorem readFrom_quoted {quote : Char} (h : quote ∉ cs) :
    read.readFrom (.quoted quote name value) (cs ++ quote :: rest) =
      (read.withAttr name (value ++ cs)).readFrom .afterQuoted rest := by
  induction cs generalizing value with
  | nil =>
      have closed : read.step (.quoted quote name value) quote =
          .next .afterQuoted (read.withAttr name value) := by
        simp [step]
      rw [List.nil_append, readFrom_cons_next closed, List.append_nil]
  | cons c cs ih =>
      rw [List.mem_cons, not_or] at h
      have taken : read.step (.quoted quote name value) c =
          .next (.quoted quote name (value ++ [c])) read := by
        simp [step, Ne.symm h.1]
      rw [List.cons_append, readFrom_cons_next taken, ih h.2, List.append_assoc,
        List.singleton_append]

private theorem readFrom_unquoted (h : ∀ c ∈ cs, isBareValueChar c = true) :
    read.readFrom (.unquoted name value) (cs ++ rest) =
      read.readFrom (.unquoted name (value ++ cs)) rest := by
  induction cs generalizing value with
  | nil => simp
  | cons c cs ih =>
      have hc := isBareValueChar_iff.1 (h c List.mem_cons_self)
      have taken : read.step (.unquoted name value) c =
          .next (.unquoted name (value ++ [c])) read := by
        simp [step, hc]
      rw [List.cons_append, readFrom_cons_next taken,
        ih fun d hd => h d (List.mem_cons_of_mem c hd), List.append_assoc, List.singleton_append]

/-- Gives the tag with the attribute that is still being read. -/
def flush (read : ReadTag) : TagState → ReadTag
  | .name name | .afterName name => read.withAttr name []
  | .unquoted name value => read.withAttr name value
  | _ => read

def withPairs (read : ReadTag) (pairs : List (String × String)) : ReadTag :=
  { read with attrs := read.attrs ++ pairs }

private theorem withPairs_nil : read.withPairs [] = read := by
  simp [withPairs]

private theorem withPairs_append (first second : List (String × String)) :
    read.withPairs (first ++ second) = (read.withPairs first).withPairs second := by
  simp [withPairs]

end ReadTag

namespace TagState

inductive Opens : TagState → Prop where
  | beforeName : Opens .beforeName
  | afterName (name : List Char) : Opens (.afterName name)
  | afterQuoted : Opens .afterQuoted

/-- Says in which states a reader can be behind an attribute that ends in a given way, or behind
the tag name. A bare name that is empty leaves the reader where it was. -/
inductive Rests : Option Ending → TagState → Prop where
  | tagName : Rests none .tagName
  | name (name : List Char) : Rests (some .name) (.name name)
  | nothing {state : TagState} (opens : Opens state) : Rests (some .name) state
  | unquoted (name value : List Char) : Rests (some .unquoted) (.unquoted name value)
  | quoted : Rests (some .quoted) .afterQuoted

end TagState

namespace ReadTag

open TagState

variable {read : ReadTag} {state : TagState} {previous : Option Ending} {c : Char}
  {name value cs rest : List Char}

private theorem step_space (read : ReadTag) (h : Rests previous state) (hc : isSpace c = true) :
    ∃ (state' : TagState) (read' : ReadTag), read.step state c = .next state' read' ∧
      Opens state' ∧ read'.flush state' = read.flush state := by
  cases h with
  | tagName => exact ⟨.beforeName, read, by simp [step, hc], .beforeName, rfl⟩
  | name name => exact ⟨.afterName name, read, by simp [step, hc], .afterName name, rfl⟩
  | nothing opens =>
      cases opens with
      | beforeName => exact ⟨.beforeName, read, by simp [step, startAttr, hc], .beforeName, rfl⟩
      | afterName name => exact ⟨.afterName name, read, by simp [step, hc], .afterName name, rfl⟩
      | afterQuoted => exact ⟨.beforeName, read, by simp [step, startAttr, hc], .beforeName, rfl⟩
  | unquoted name value =>
      exact ⟨.beforeName, read.withAttr name value, by simp [step, hc], .beforeName, rfl⟩
  | quoted => exact ⟨.beforeName, read, by simp [step, startAttr, hc], .beforeName, rfl⟩

private theorem readFrom_spaces (read : ReadTag) (rest : List Char) (h : Rests previous state)
    (hcs : ∀ c ∈ cs, isSpace c = true) (hsome : cs = [] → Opens state) :
    ∃ (state' : TagState) (read' : ReadTag),
      read.readFrom state (cs ++ rest) = read'.readFrom state' rest ∧ Opens state' ∧
        read'.flush state' = read.flush state := by
  induction cs generalizing read state previous with
  | nil => exact ⟨state, read, rfl, hsome rfl, rfl⟩
  | cons c cs ih =>
      obtain ⟨state₁, read₁, hstep, opens₁, flush₁⟩ :=
        step_space read h (hcs c List.mem_cons_self)
      obtain ⟨state₂, read₂, hread, opens₂, flush₂⟩ :=
        ih read₁ (.nothing opens₁) (fun d hd => hcs d (List.mem_cons_of_mem c hd))
          fun _ => opens₁
      refine ⟨state₂, read₂, ?_, opens₂, flush₂.trans flush₁⟩
      rw [List.cons_append, readFrom_cons_next hstep, hread]

private theorem readFrom_of_opens (h : Opens state) (hne : name ≠ [])
    (hname : ∀ c ∈ name, isNameChar c = true) :
    read.readFrom state (name ++ rest) = (read.flush state).readFrom (.name name) rest := by
  cases name with
  | nil => exact absurd rfl hne
  | cons c cs =>
      obtain ⟨hspace, hslash, hend, hequals⟩ := isNameChar_iff.1 (hname c List.mem_cons_self)
      have started : read.step state c = .next (.name [c]) (read.flush state) := by
        cases h <;> simp [step, startAttr, flush, hspace, hslash, hend, hequals]
      rw [List.cons_append, readFrom_cons_next started,
        readFrom_name fun d hd => hname d (List.mem_cons_of_mem c hd), List.singleton_append]

private theorem step_end (read : ReadTag) (h : Rests previous state) :
    read.step state '>' = .done (read.flush state) := by
  cases h with
  | nothing opens => cases opens <;> simp [step, startAttr, flush, isSpace]
  | _ => simp [step, startAttr, flush, isSpace]

private theorem step_slash (read : ReadTag) (h : Rests previous state)
    (hne : previous ≠ some .unquoted) : read.step state '/' = .next .slash (read.flush state) := by
  cases h with
  | nothing opens => cases opens <;> simp [step, startAttr, flush, isSpace]
  | unquoted name value => exact absurd rfl hne
  | _ => simp [step, startAttr, flush, isSpace]

/-- Says that the text of an attribute is read as certain attributes, wherever one can start. -/
def ReadsAs (attr : AttributeText) (pairs : List (String × String)) : Prop :=
  ∀ (read : ReadTag) (state : TagState) (rest : List Char), Opens state →
    ∃ (state' : TagState) (read' : ReadTag),
      read.readFrom state (attr.text.toList ++ rest) = read'.readFrom state' rest ∧
      Rests (some attr.ending) state' ∧ read'.flush state' = (read.flush state).withPairs pairs

end ReadTag

namespace Config

open TagState ReadTag

variable {cfg : Config}

/-- Gives the name and the value that an attribute is read back as, if it is written. -/
def readBack? (cfg : Config) (dialect : Dialect) (name : String) :
    Value → Option (String × String)
  | .flag false => none
  | .flag true =>
      match cfg.unmarked? name with
      | some bare => some ((cfg.escape .attributeName bare).text, "")
      | none =>
          match dialect with
          | .html => some ((cfg.escape .attributeName name).text, "")
          | .svg => some ((cfg.escape .attributeName name).text, name)
  | .text content => some ((cfg.escape .attributeName name).text, content)
  | .spaceList tokens => some ((cfg.escape .attributeName name).text, joinTokens " " tokens)
  | .commaList tokens =>
      some ((cfg.escape .attributeName name).text, joinTokens cfg.listSeparator tokens)

private theorem readsAs_bareName (hent : cfg.entities = ∅) (name : String) :
    ReadsAs (cfg.bareName name)
      ([((cfg.escape .attributeName name).text, "")].filter fun pair => pair.1 != "") := by
  intro read state rest opens
  rw [text_escape, bareName, text_escape]
  by_cases hempty : (cfg.escaping .attributeName).escaped name = ""
  · refine ⟨state, read, ?_, .nothing opens, ?_⟩
    · simp [hempty]
    · simp [hempty, withPairs_nil]
  · have hne : ((cfg.escaping .attributeName).escaped name).toList ≠ [] := by
      simpa using hempty
    refine ⟨_, _, readFrom_of_opens opens hne fun c hc => isNameChar_of_mem_escaped hent hc,
      .name _, ?_⟩
    simp [flush, withAttr, withPairs, hempty, Entities.decode]

private theorem readsAs_assignment (hent : cfg.entities = ∅) {name : String} (hname : name ≠ "")
    (value : String) :
    ReadsAs (cfg.assignment name value) [((cfg.escape .attributeName name).text, value)] := by
  intro read state rest opens
  have hne : ((cfg.escaping .attributeName).escaped name).toList ≠ [] := by
    intro hnil
    exact hname (Escaping.escaped_eq_empty_iff.1 (String.toList_eq_nil_iff.1 hnil))
  have named : ∀ tail, read.readFrom state
      (((cfg.escaping .attributeName).escaped name).toList ++ '=' :: tail) =
        (read.flush state).readFrom
          (.beforeValue ((cfg.escaping .attributeName).escaped name).toList) tail := by
    intro tail
    rw [readFrom_of_opens opens hne fun c hc => isNameChar_of_mem_escaped hent hc]
    exact readFrom_cons_next (by simp [step, isSpace])
  rw [assignment_toList, List.append_assoc, List.cons_append, named, text_escape]
  by_cases hbare : cfg.leavesUnquoted value = true
  · obtain ⟨htext, hamp, hchars, c, cs, hvalue, hdouble, hsingle⟩ :=
      valueText_of_leavesUnquoted hbare
    rw [hvalue] at hchars
    have hc := isBareValueChar_iff.1 (hchars c List.mem_cons_self)
    have starts : ∀ n : List Char, (read.flush state).step (.beforeValue n) c =
        .next (.unquoted n [c]) (read.flush state) := by
      intro n
      simp [step, hc, hdouble, hsingle]
    refine ⟨.unquoted ((cfg.escaping .attributeName).escaped name).toList (c :: cs),
      read.flush state, ?_, ?_, ?_⟩
    · rw [htext, hvalue, List.cons_append, readFrom_cons_next (starts _),
        readFrom_unquoted fun d hd => hchars d (List.mem_cons_of_mem c hd), List.singleton_append]
    · rw [assignment, htext]
      exact .unquoted _ _
    · rw [flush, withAttr, ← hvalue, Entities.decode_eq_self _ hamp]
      simp [withPairs]
  · obtain ⟨hending, htext⟩ := valueText_of_not_leavesUnquoted hbare
    have starts : ∀ n : List Char, (read.flush state).step (.beforeValue n) cfg.quote.char =
        .next (.quoted cfg.quote.char n []) (read.flush state) := by
      intro n
      cases cfg.quote <;> simp [step, Quote.char, isSpace]
    refine ⟨.afterQuoted, (read.flush state).withAttr
      ((cfg.escaping .attributeName).escaped name).toList
      ((cfg.escaping cfg.quote.context).escaped value).toList, ?_, ?_, ?_⟩
    · rw [htext, List.cons_append, readFrom_cons_next (starts _), List.append_assoc,
        List.singleton_append, readFrom_quoted (quote_not_mem_escaped hent value), List.nil_append]
    · rw [assignment, hending]
      exact .quoted
    · change (read.flush state).withAttr _ _ = _
      rw [withAttr, decode_escaped hent]
      simp [withPairs]

private theorem readsAs_attributeText (hent : cfg.entities = ∅) {dialect : Dialect} {name : String}
    {value : Value} {attr : AttributeText}
    (hattr : cfg.attributeText? dialect name value = some attr)
    (hnamed : attr.ending ≠ .name → name ≠ "") :
    ReadsAs attr ((cfg.readBack? dialect name value).toList.filter fun pair => pair.1 != "") := by
  have assigned : ∀ content, cfg.assignment name content = attr →
      ReadsAs attr ([((cfg.escape .attributeName name).text, content)].filter
        fun pair => pair.1 != "") := by
    rintro content rfl
    have hname : name ≠ "" := hnamed (by
      by_cases hbare : cfg.leavesUnquoted content = true
      · simp [assignment, valueText_of_leavesUnquoted hbare]
      · simp [assignment, valueText_of_not_leavesUnquoted hbare])
    have shown : (cfg.escape .attributeName name).text ≠ "" := by
      rw [text_escape]
      exact fun h => hname (Escaping.escaped_eq_empty_iff.1 h)
    simpa [shown] using readsAs_assignment hent hname content
  cases value with
  | flag on =>
      cases on with
      | false => simp [attributeText?] at hattr
      | true =>
          simp only [attributeText?, Option.some.injEq] at hattr
          subst hattr
          cases hmark : cfg.unmarked? name with
          | some bare => simpa [flagText, readBack?, hmark] using readsAs_bareName hent bare
          | none =>
              cases dialect with
              | svg => simpa [readBack?, hmark] using assigned name (by simp [flagText, hmark])
              | html =>
                  by_cases hboolean : cfg.isBooleanAttribute name = true
                  · simpa [flagText, readBack?, hmark, hboolean] using readsAs_bareName hent name
                  · simpa [readBack?, hmark] using assigned "" (by simp [flagText, hmark, hboolean])
  | text content => exact assigned content (by simpa [attributeText?] using hattr)
  | spaceList tokens => exact assigned _ (by simpa [attributeText?] using hattr)
  | commaList tokens => exact assigned _ (by simpa [attributeText?] using hattr)

/-- Gives the attributes that some entries are read back as; an entry with nothing to show for a
name leaves no trace. -/
def readBackAll (cfg : Config) (dialect : Dialect) (entries : List (String × Value)) :
    List (String × String) :=
  (entries.filterMap fun entry => cfg.readBack? dialect entry.1 entry.2).filter
    fun pair => pair.1 != ""

def readBack (cfg : Config) (dialect : Dialect) (e : Element) : ReadTag :=
  { tag := e.tag
    attrs := cfg.readBackAll dialect e.attrs.entries
    selfClosing :=
      match dialect with
      | .html => cfg.isVoid e.tag && cfg.closeSelfClosing
      | .svg => e.children.isEmpty && cfg.closeEmptyElements }

private theorem readBackAll_cons (dialect : Dialect) (entry : String × Value)
    (entries : List (String × Value)) :
    cfg.readBackAll dialect (entry :: entries) =
      (cfg.readBack? dialect entry.1 entry.2).toList.filter (fun pair => pair.1 != "") ++
        cfg.readBackAll dialect entries := by
  rw [readBackAll, readBackAll, List.filterMap_cons]
  cases cfg.readBack? dialect entry.1 entry.2 with
  | none => rfl
  | some pair => rw [Option.toList_some, ← List.filter_append, List.singleton_append]

private theorem readBack?_eq_none {dialect : Dialect} {name : String} {value : Value}
    (h : cfg.attributeText? dialect name value = none) :
    cfg.readBack? dialect name value = none := by
  cases value with
  | flag on => cases on <;> simp_all [attributeText?, readBack?]
  | _ => simp [attributeText?] at h

private theorem exists_readsAs (hent : cfg.entities = ∅) {dialect : Dialect}
    {entries : List (String × Value)}
    (hnamed : ∀ entry ∈ entries, ∀ attr, cfg.attributeText? dialect entry.1 entry.2 = some attr →
      attr.ending ≠ .name → entry.1 ≠ "") :
    ∃ pairs, List.Forall₂ ReadsAs
        (entries.filterMap fun entry => cfg.attributeText? dialect entry.1 entry.2) pairs ∧
      pairs.flatten = cfg.readBackAll dialect entries := by
  induction entries with
  | nil => exact ⟨[], .nil, rfl⟩
  | cons entry entries ih =>
      obtain ⟨pairs, hreads, hpairs⟩ := ih fun e he => hnamed e (List.mem_cons_of_mem entry he)
      cases hattr : cfg.attributeText? dialect entry.1 entry.2 with
      | none =>
          refine ⟨pairs, by simpa [hattr] using hreads, ?_⟩
          rw [hpairs, readBackAll_cons, readBack?_eq_none hattr]
          rfl
      | some attr =>
          have first := readsAs_attributeText hent hattr
            (hnamed entry List.mem_cons_self attr hattr)
          refine ⟨(cfg.readBack? dialect entry.1 entry.2).toList.filter (fun pair => pair.1 != "") ::
            pairs, ?_, ?_⟩
          · simpa [hattr] using List.Forall₂.cons first hreads
          · rw [List.flatten_cons, hpairs, readBackAll_cons]

theorem readFrom_chain (hindent : ∀ c ∈ cfg.customElementIndent.toList, isSpace c = true)
    (stacked : Bool) {attrs : List AttributeText} {pairs : List (List (String × String))}
    (hreads : List.Forall₂ ReadsAs attrs pairs) {previous : Option Ending} {state : TagState}
    (hrests : Rests previous state) (read : ReadTag) (rest : List Char) :
    ∃ (state' : TagState) (read' : ReadTag),
      read.readFrom state ((chain (cfg.separator stacked) previous attrs).toList ++ rest) =
        read'.readFrom state' rest ∧ Rests (lastEnding previous attrs) state' ∧
      read'.flush state' = (read.flush state).withPairs pairs.flatten := by
  induction hreads generalizing previous state read with
  | nil => exact ⟨state, read, by simp [chain], hrests, by simp [withPairs_nil]⟩
  | @cons attr here attrs there first _ ih =>
      -- only behind a closing quote can the separator be missing
      have opens : (cfg.separator stacked previous).toList = [] → Opens state := by
        intro hnil
        have quoted : previous = some .quoted := by
          by_contra hne
          exact separator_ne_empty hne (String.toList_eq_nil_iff.1 hnil)
        subst quoted
        cases hrests
        exact .afterQuoted
      let tail := (chain (cfg.separator stacked) (some attr.ending) attrs).toList ++ rest
      obtain ⟨state₁, read₁, hread₁, opens₁, flush₁⟩ :=
        readFrom_spaces read (attr.text.toList ++ tail) hrests
          (fun c hc => isSpace_of_mem_separator hindent hc) opens
      obtain ⟨state₂, read₂, hread₂, rests₂, flush₂⟩ := first read₁ state₁ tail opens₁
      obtain ⟨state₃, read₃, hread₃, rests₃, flush₃⟩ := ih rests₂ read₂
      refine ⟨state₃, read₃, ?_, rests₃, ?_⟩
      · rw [chain, String.toList_append, String.toList_append, List.append_assoc,
          List.append_assoc, hread₁, hread₂, hread₃]
      · rw [flush₃, flush₂, flush₁, List.flatten_cons, withPairs_append]

private theorem readFrom_slash {last : Option Ending} {state : TagState} (hrests : Rests last state)
    (hne : last ≠ some .unquoted) (read : ReadTag) (rest : List Char) :
    read.readFrom state ('/' :: '>' :: rest) =
      some ({ read.flush state with selfClosing := true }, rest) := by
  rw [readFrom_cons_next (step_slash read hrests hne)]
  exact readFrom_cons_done (by simp [step])

private theorem readFrom_tagEnd {last : Option Ending} {state : TagState}
    (hrests : Rests last state) (read : ReadTag) (hopen : (read.flush state).selfClosing = false)
    (closed : Bool) (rest : List Char) :
    read.readFrom state ((cfg.tagEnd closed last).toList ++ rest) =
      some ({ read.flush state with selfClosing := closed }, rest) := by
  cases closed with
  | false =>
      have unclosed : ({ read.flush state with selfClosing := false } : ReadTag) =
          read.flush state := by
        rw [← hopen]
      rw [unclosed]
      simpa [tagEnd] using readFrom_cons_done (step_end read hrests)
  | true =>
      by_cases htight : (cfg.tightSelfClosing && last != some .unquoted) = true
      · have hne : last ≠ some .unquoted := by
          rw [Bool.and_eq_true, bne_iff_ne] at htight
          exact htight.2
        simpa [tagEnd, slash, htight] using readFrom_slash hrests hne read rest
      · have space : ∀ c ∈ [' '], isSpace c = true := List.all_eq_true.1 (by decide)
        obtain ⟨state₁, read₁, hread₁, opens₁, flush₁⟩ :=
          readFrom_spaces read ('/' :: '>' :: rest) hrests space (by simp)
        have spaced : (cfg.tagEnd true last).toList ++ rest =
            [' '] ++ '/' :: '>' :: rest := by
          simp [tagEnd, slash, htight]
        rw [spaced, hread₁, readFrom_slash (.nothing opens₁) (by simp), flush₁]

/-- Every start tag reads back as the attributes it was written from: the reader ends at the end of
the tag, with one attribute for each that is written and has a name to show, in order. -/
theorem read_startTag (hent : cfg.entities = ∅)
    (hindent : ∀ c ∈ cfg.customElementIndent.toList, isSpace c = true) (dialect : Dialect)
    (e : Element) (hletter : e.tag.toList.head?.any Char.isAlpha = true)
    (htag : ∀ c ∈ e.tag.toList, isTagChar c = true)
    (hnamed : ∀ entry ∈ e.attrs.entries, ∀ attr,
      cfg.attributeText? dialect entry.1 entry.2 = some attr → attr.ending ≠ .name → entry.1 ≠ "")
    (rest : List Char) :
    readStartTag ((cfg.startTag dialect e).toList ++ rest) = some (cfg.readBack dialect e, rest) := by
  obtain ⟨stacked, htext⟩ := cfg.startTag_toList dialect e
  obtain ⟨pairs, hreads, hpairs⟩ := exists_readsAs hent hnamed
  change List.Forall₂ ReadsAs (cfg.attributeTexts dialect e) pairs at hreads
  cases hchars : e.tag.toList with
  | nil => simp [hchars] at hletter
  | cons c cs =>
      rw [hchars] at htag hletter
      have alpha : c.isAlpha = true := by simpa using hletter
      have tag : String.ofList [c] ++ String.ofList cs = e.tag := by
        rw [← String.toList_inj, hchars]
        simp
      obtain ⟨state₁, read₁, hread₁, rests₁, flush₁⟩ :=
        readFrom_chain hindent stacked hreads .tagName { tag := e.tag }
          ((cfg.tagEnd (cfg.selfCloses dialect e)
            (lastEnding none (cfg.attributeTexts dialect e))).toList ++ rest)
      have hopen : (read₁.flush state₁).selfClosing = false := by
        rw [flush₁]
        rfl
      rw [htext, hchars, List.cons_append, List.cons_append, List.cons_append, readStartTag,
        if_pos alpha, List.append_assoc, List.append_assoc,
        readFrom_tagName fun d hd => htag d (List.mem_cons_of_mem c hd)]
      simp only [tag]
      rw [hread₁, readFrom_tagEnd rests₁ read₁ hopen, flush₁, hpairs]
      cases dialect <;> rfl

theorem read_startTag_image :
    let cfg : Config :=
      { preferUnquoted := true, tightAttributes := true, tightSelfClosing := true,
        closeSelfClosing := true, quote := .single }
    let e : Element :=
      { tag := "img"
        attrs.entries := [("alt", .text "it's"), ("hidden", .flag true), ("#x", .flag true),
          ("src", .text "a/")] }
    cfg.startTag .html e = "<img alt='it&#x27;s'hidden x src=a/ />" ∧
      readStartTag ((cfg.startTag .html e).toList ++ ['>']) =
        some (⟨"img", [("alt", "it's"), ("hidden", ""), ("x", ""), ("src", "a/")], true⟩, ['>']) := by
  intro cfg e
  have named : ∀ entry ∈ e.attrs.entries, entry.1 ≠ "" := by decide
  have back : cfg.readBack .html e =
      ⟨"img", [("alt", "it's"), ("hidden", ""), ("x", ""), ("src", "a/")], true⟩ := by
    decide +kernel
  refine ⟨by decide +kernel, ?_⟩
  rw [← back]
  exact read_startTag rfl (List.all_eq_true.1 (by decide)) .html e (by decide)
    (List.all_eq_true.1 (by decide)) (fun entry hentry _ _ _ => named entry hentry) ['>']

/-- Without a name an attribute is lost: its equals sign and its value are read as a name. -/
theorem not_forall_read_startTag :
    ¬ ∀ (cfg : Config) (dialect : Dialect) (e : Element) (rest : List Char), cfg.entities = ∅ →
      (∀ c ∈ cfg.customElementIndent.toList, isSpace c = true) →
      e.tag.toList.head?.any Char.isAlpha = true → (∀ c ∈ e.tag.toList, isTagChar c = true) →
      readStartTag ((cfg.startTag dialect e).toList ++ rest) =
        some ({ cfg.readBack dialect e with
          attrs := e.attrs.entries.filterMap fun entry => cfg.readBack? dialect entry.1 entry.2 },
          rest) := by
  intro h
  have read := h {} .html { tag := "div", attrs.entries := [("", .text "x")] } [] rfl
    (List.all_eq_true.1 (by decide)) (by decide) (List.all_eq_true.1 (by decide))
  revert read
  decide +kernel

end Config

end HtmlPrinter
