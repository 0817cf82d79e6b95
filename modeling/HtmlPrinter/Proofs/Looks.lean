import HtmlPrinter.Omission.StartTag

/-!
# What the rules see

The rules for implied tags see little of a node: whether it is blank text, text that starts with a
space or a comment, and the name of an element up to case. This is the `look` of a node. Where the
siblings of two elements look alike (`Place.Alike`), and their children do, the same tags of both
are implied: `Element.endTagImplied_congr_look` and `Element.startTagImplied_congr_look` say so.
-/

namespace HtmlPrinter

/-- Holds what the rules see of a node. -/
structure Look where
  blank : Bool
  startsBlank : Bool
  comment : Bool
  /-- The folded name of an element. -/
  name? : Option (List Char)
deriving DecidableEq

namespace Look

def isFirm (look : Look) : Bool := !look.comment && !look.startsBlank

def isOneOf (tags : List String) (look : Look) : Bool :=
  look.name?.any fun name => tags.any fun tag => name == foldName tag

end Look

namespace Node

def look (node : Node) : Look where
  blank := node.isBlank
  startsBlank := node.startsBlank
  comment := node.isComment
  name? := node.element?.map fun e => foldName e.tag

private theorem isFirm_look (node : Node) : node.look.isFirm = node.isFirm := rfl

private theorem isOneOf_look (tags : List String) (node : Node) :
    node.look.isOneOf tags = node.isOneOf tags := by
  cases node <;> rfl

private theorem isElementNamed_look (tag : String) (node : Node) :
    node.look.isOneOf [tag] = node.isElementNamed tag := by
  cases node with
  | element e => simp [look, Look.isOneOf, element?, isElementNamed, sameName]
  | _ => rfl

private theorem find?_look (nodes : List Node) :
    (nodes.map look).find? (!·.blank) = (nodes.find? (!·.isBlank)).map look :=
  List.find?_map ..

private theorem exists_element_of_look_eq {e : Element} {node : Node}
    (h : node.look = (element e).look) :
    ∃ f, node = .element f ∧ foldName f.tag = foldName e.tag := by
  have names := congrArg Look.name? h
  cases node with
  | element f => exact ⟨f, rfl, Option.some.inj names⟩
  | _ => cases names

section

variable {a b : Option Node} {see : Node → Bool} (seen : Look → Bool)

private theorem all_congr_look (hsee : ∀ node, seen node.look = see node)
    (h : a.map look = b.map look) : a.all see = b.all see := by
  have through : ∀ node? : Option Node, node?.all see = (node?.map look).all seen := by
    intro node?
    simp [Option.all_map, hsee]
  rw [through, h, ← through]

private theorem any_congr_look (hsee : ∀ node, seen node.look = see node)
    (h : a.map look = b.map look) : a.any see = b.any see := by
  have through : ∀ node? : Option Node, node?.any see = (node?.map look).any seen := by
    intro node?
    simp [Option.any_map, hsee]
  rw [through, h, ← through]

end

private theorem countP_congr_look {as bs : List Node} (h : as.map look = bs.map look)
    (tag : String) : as.countP (isElementNamed tag) = bs.countP (isElementNamed tag) := by
  have through : ∀ nodes : List Node,
      nodes.countP (isElementNamed tag) = (nodes.map look).countP (Look.isOneOf [tag]) := by
    intro nodes
    simp [List.countP_map, Function.comp_def, isElementNamed_look]
  rw [through, h, ← through]

private theorem head?_congr_look {as bs : List Node} (h : as.map look = bs.map look) :
    as.head?.map look = bs.head?.map look := by
  rw [← List.head?_map, h, List.head?_map]

private theorem firstSolid_congr_look {as bs : List Node} (h : as.map look = bs.map look) :
    (as.find? (!·.isBlank)).map look = (bs.find? (!·.isBlank)).map look := by
  rw [← find?_look, h, find?_look]

end Node

/-- Says that two places look alike to the rules. -/
structure Place.Alike (p q : Place) : Prop where
  parent : p.parent.map foldName = q.parent.map foldName
  index : p.index = q.index
  siblings : p.siblings.map Node.look = q.siblings.map Node.look

/-- A rule for end tags sees the parent and how the siblings behind look. -/
theorem EndRule.holds_congr_look {p q : Place}
    (hparent : p.parent.map foldName = q.parent.map foldName)
    (hfollowing : p.following.map Node.look = q.following.map Node.look) (rule : EndRule) :
    rule.holds p = rule.holds q := by
  have solid : p.nextSolid?.map Node.look = q.nextSolid?.map Node.look :=
    Node.firstSolid_congr_look hfollowing
  have ends : ∀ tags, p.nextSolid?.any (Node.isOneOf tags) = q.nextSolid?.any (Node.isOneOf tags) :=
    fun tags => Node.any_congr_look (Look.isOneOf tags) (Node.isOneOf_look tags) solid
  cases rule with
  | boundary =>
      have next := Node.head?_congr_look hfollowing
      exact Node.all_congr_look Look.isFirm Node.isFirm_look next
  | lastOr tags => exact Node.all_congr_look (Look.isOneOf tags) (Node.isOneOf_look tags) solid
  | followedBy tags => exact ends tags
  | last =>
      have none := congrArg Option.isNone solid
      simpa [holds] using none
  | paragraph =>
      have closes := ends paragraphEnders
      have keepers : ∀ parent : Option String, parent.all (!nameIn · paragraphKeepers) =
          (parent.map foldName).all fun name =>
            !paragraphKeepers.any fun keeper => name == foldName keeper := by
        intro parent
        rw [Option.all_map]
        rfl
      rw [holds, holds]
      cases hp : p.nextSolid? with
      | none =>
          cases hq : q.nextSolid? with
          | none => exact (keepers _).trans (hparent ▸ (keepers _).symm)
          | some next => simp [hp, hq] at solid
      | some next =>
          cases hq : q.nextSolid? with
          | none => simp [hp, hq] at solid
          | some next' => simpa [hp, hq] using closes

theorem Element.endTagImplied_congr_look {e f : Element} {p q : Place}
    (htag : foldName e.tag = foldName f.tag)
    (hparent : p.parent.map foldName = q.parent.map foldName)
    (hfollowing : p.following.map Node.look = q.following.map Node.look) :
    e.endTagImplied p = f.endTagImplied q := by
  rw [endTagImplied, endTagImplied, endRule?_congr (sameName_iff.2 htag)]
  congr 1
  funext rule
  exact rule.holds_congr_look hparent hfollowing

namespace Place

variable {p q : Place}

private theorem previousSolid?_look (place : Place) :
    place.previousSolid?.map (Prod.map Node.look id) =
      ((place.preceding.map Node.look).zipIdx.reverse).find? (!·.1.blank) := by
  rw [previousSolid?, List.zipIdx_map, ← List.map_reverse, List.find?_map]
  rfl

namespace Alike

theorem following (h : p.Alike q) : p.following.map Node.look = q.following.map Node.look := by
  rw [Place.following, Place.following, List.map_drop, List.map_drop, h.index, h.siblings]

theorem atIndex (h : p.Alike q) (index : Nat) : (p.atIndex index).Alike (q.atIndex index) :=
  ⟨h.parent, rfl, h.siblings⟩

theorem previousSolid? (h : p.Alike q) :
    p.previousSolid?.map (Prod.map Node.look id) =
      q.previousSolid?.map (Prod.map Node.look id) := by
  have length : p.siblings.length = q.siblings.length := by
    simpa using congrArg List.length h.siblings
  have preceding : p.preceding.map Node.look = q.preceding.map Node.look := by
    rw [Place.preceding, Place.preceding, length, h.index]
    split
    · rw [List.map_take, List.map_take, h.siblings]
    · rfl
  rw [previousSolid?_look, previousSolid?_look, preceding]

theorem afterOpen (h : p.Alike q) (tags : List String) : p.afterOpen tags = q.afterOpen tags := by
  have found := h.previousSolid?
  rw [Place.afterOpen, Place.afterOpen]
  cases hp : p.previousSolid? with
  | none =>
      cases hq : q.previousSolid? with
      | none => rfl
      | some before => simp [hp, hq] at found
  | some before =>
      cases hq : q.previousSolid? with
      | none => simp [hp, hq] at found
      | some before' =>
          obtain ⟨node, index⟩ := before
          obtain ⟨node', index'⟩ := before'
          simp only [hp, hq, Option.map_some, Option.some.injEq, Prod.map_apply, id_eq,
            Prod.mk.injEq] at found
          obtain ⟨looks, rfl⟩ := found
          cases node with
          | element e =>
              obtain ⟨f, rfl, htag⟩ := Node.exists_element_of_look_eq looks.symm
              have there := h.atIndex index
              simp only [nameIn_congr (sameName_iff.2 htag),
                Element.endTagImplied_congr_look htag.symm there.parent there.following]
          | _ =>
              cases node' with
              | element f =>
                  obtain ⟨e, he, -⟩ := Node.exists_element_of_look_eq looks
                  cases he
              | _ => rfl

end Alike

theorem afterOpen_of_preceding (h : p.preceding = []) (tags : List String) :
    p.afterOpen tags = false := by
  simp [afterOpen, previousSolid?, h]

end Place

/-- A rule for start tags sees how the children look, and whether what is in front is open. -/
theorem StartRule.holds_congr_look {e f : Element} {p q : Place}
    (hchildren : e.children.map Node.look = f.children.map Node.look)
    (hopen : ∀ tags, p.afterOpen tags = q.afterOpen tags) (rule : StartRule) :
    rule.holds e p = rule.holds f q := by
  have first : e.firstChild?.map Node.look = f.firstChild?.map Node.look :=
    Node.head?_congr_look hchildren
  have solid : e.firstSolid?.map Node.look = f.firstSolid?.map Node.look :=
    Node.firstSolid_congr_look hchildren
  cases rule with
  | document =>
      exact Node.all_congr_look (fun look => !look.comment) (fun _ => rfl) solid
  | metadata =>
      have empty : e.children.isEmpty = f.children.isEmpty := by
        rw [← List.isEmpty_map, hchildren, List.isEmpty_map]
      rw [holds, holds, empty, Node.countP_congr_look hchildren, Node.countP_congr_look hchildren]
  | content =>
      have see : ∀ node : Node, (node.look.isFirm && !node.look.isOneOf metadataElements) =
          (node.isFirm && !node.isOneOf metadataElements) := by
        intro node
        rw [Node.isFirm_look, Node.isOneOf_look]
      exact Node.all_congr_look (fun look => look.isFirm && !look.isOneOf metadataElements) see
        first
  | tablePart child skipBlank after =>
      have named := Node.isElementNamed_look child
      have row := Node.any_congr_look (Look.isOneOf [child]) named solid
      have column := Node.any_congr_look (Look.isOneOf [child]) named first
      rw [holds, holds, hopen]
      cases skipBlank
      · simp [column]
      · simp [row]

theorem Element.startTagImplied_congr_look {e f : Element} {p q : Place}
    (htag : foldName e.tag = foldName f.tag)
    (hchildren : e.children.map Node.look = f.children.map Node.look)
    (hopen : ∀ tags, p.afterOpen tags = q.afterOpen tags) :
    e.startTagImplied p = f.startTagImplied q := by
  rw [startTagImplied, startTagImplied, startRule?_congr (sameName_iff.2 htag)]
  congr 1
  funext rule
  exact rule.holds_congr_look hchildren hopen

end HtmlPrinter
