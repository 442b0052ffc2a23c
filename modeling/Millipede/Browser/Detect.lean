import Mathlib.Algebra.Order.BigOperators.Group.List
import Mathlib.Algebra.Order.Group.Nat
import Millipede.Statistics

/-!
# Pages that need a browser

`DefaultPromotionDetector::inspect_html` over a parsed document: element names and the texts of
text nodes. A page is a shell when its body has little text and there is a script. The text is
that of all text nodes below the body, those of inline scripts and style sheets among them.

The required selector is a parameter: how it parses, and whether an element matches.
-/

namespace Millipede.Detect

inductive Node where
  | text (content : List Char)
  | element (name : String) (children : List Node)
  /-- A comment, a doctype or a processing instruction. -/
  | other

abbrev Document := List Node

-- The children of the elements with a name, in document order, and the texts of the nodes
-- below a node.
mutual

def Node.select (name : String) : Node → List (List Node)
  | .element found children =>
    if found = name then children :: selectAll name children else selectAll name children
  | _ => []

def selectAll (name : String) : List Node → List (List Node)
  | [] => []
  | node :: nodes => node.select name ++ selectAll name nodes

end

mutual

def Node.texts : Node → List (List Char)
  | .text content => [content]
  | .element _ children => textsAll children
  | .other => []

def textsAll : List Node → List (List Char)
  | [] => []
  | node :: nodes => node.texts ++ textsAll nodes

end

/-- `str::trim` -/
def trim (text : List Char) : List Char :=
  ((text.dropWhile isWhitespace).reverse.dropWhile isWhitespace).reverse

/-- `str::len` -/
def len (text : List Char) : ℕ := (text.map Char.utf8Size).sum

inductive PromotionReason where
  | emptyBodyLikelyJs
  | selectorMissing (selector : String)
deriving DecidableEq

structure DefaultPromotionDetector where
  requiredSelector : Option String := none
  minVisibleText : ℕ := 40

def joinedLen (texts : List (List Char)) : ℕ := len (trim ([' '].intercalate texts))

def isSuccess (status : ℕ) : Bool := decide (200 ≤ status) && decide (status < 300)

def inspectHtml (parse : String → Option (Document → Bool)) (detector : DefaultPromotionDetector)
    (status : ℕ) (document : Document) : Option PromotionReason :=
  let missing := detector.requiredSelector.filter fun selector =>
    (parse selector).any fun isMatch => !isMatch document
  match missing with
  | some selector => some (.selectorMissing selector)
  | none =>
    if isSuccess status then
      let visibleTextLen := ((selectAll "body" document).head?.map fun body =>
        joinedLen (textsAll body)).getD 0
      let hasScript := (selectAll "script" document).head?.isSome
      if visibleTextLen < detector.minVisibleText && hasScript then some .emptyBodyLikelyJs
      else none
    else none

mutual

/-- The texts that lie inside of no script and no style sheet. -/
def Node.visible : Node → List (List Char)
  | .text content => [content]
  | .element name children =>
    if name = "script" ∨ name = "style" then [] else visibleAll children
  | .other => []

def visibleAll : List Node → List (List Char)
  | [] => []
  | node :: nodes => node.visible ++ visibleAll nodes

end

def bodyLen (texts : List Node → List (List Char)) (document : Document) : ℕ :=
  ((selectAll "body" document).head?.map fun body => joinedLen (texts body)).getD 0

mutual

theorem Node.visible_sublist (node : Node) : node.visible.Sublist node.texts := by
  cases node with
  | text content => exact List.Sublist.refl _
  | element name children =>
    rw [Node.visible, Node.texts]
    split_ifs
    · exact List.nil_sublist _
    · exact visibleAll_sublist children
  | other => exact List.Sublist.refl _

theorem visibleAll_sublist (nodes : List Node) : (visibleAll nodes).Sublist (textsAll nodes) := by
  cases nodes with
  | nil => exact List.Sublist.refl _
  | cons node nodes =>
    rw [visibleAll, textsAll]
    exact node.visible_sublist.append (visibleAll_sublist nodes)

end

theorem dropWhile_sublist_dropWhile {α : Type*} (p : α → Bool) {xs ys : List α}
    (h : xs.Sublist ys) : (xs.dropWhile p).Sublist (ys.dropWhile p) := by
  induction h with
  | slnil => exact List.Sublist.refl _
  | @cons xs ys a h ih =>
    rw [List.dropWhile_cons]
    split_ifs
    · exact ih
    · exact ((List.dropWhile_sublist p).trans h).cons a
  | @cons_cons xs ys a h ih =>
    rw [List.dropWhile_cons, List.dropWhile_cons]
    split_ifs
    · exact ih
    · exact h.cons_cons a

theorem intercalate_sublist {α : Type*} (sep : List α) {texts others : List (List α)}
    (h : texts.Sublist others) : (sep.intercalate texts).Sublist (sep.intercalate others) := by
  induction h with
  | slnil => exact List.Sublist.refl _
  | @cons texts others first h ih =>
    by_cases hnil : others = []
    · rw [hnil] at h
      rw [List.sublist_nil.mp h]
      exact List.nil_sublist _
    · rw [List.intercalate_cons_of_ne_nil hnil]
      exact ih.trans (List.sublist_append_right _ _)
  | @cons_cons texts others first h ih =>
    by_cases hnil : texts = []
    · subst hnil
      rw [List.intercalate_singleton]
      by_cases hothers : others = []
      · rw [hothers, List.intercalate_singleton]
      · rw [List.intercalate_cons_of_ne_nil hothers, List.append_assoc]
        exact List.sublist_append_left _ _
    · have hothers : others ≠ [] := by
        intro hempty
        rw [hempty] at h
        exact hnil (List.sublist_nil.mp h)
      rw [List.intercalate_cons_of_ne_nil hnil, List.intercalate_cons_of_ne_nil hothers]
      exact ih.append_left _

theorem joinedLen_le {texts others : List (List Char)} (h : texts.Sublist others) :
    joinedLen texts ≤ joinedLen others := by
  have htrim : (trim ([' '].intercalate texts)).Sublist (trim ([' '].intercalate others)) := by
    have hfront := dropWhile_sublist_dropWhile isWhitespace (intercalate_sublist [' '] h)
    exact (dropWhile_sublist_dropWhile isWhitespace hfront.reverse).reverse
  exact (htrim.map Char.utf8Size).sum_le_sum fun _ _ => Nat.zero_le _

theorem bodyLen_visible_le (document : Document) :
    bodyLen visibleAll document ≤ bodyLen textsAll document := by
  rw [bodyLen, bodyLen]
  cases (selectAll "body" document).head? with
  | none => exact le_rfl
  | some body => exact joinedLen_le (visibleAll_sublist body)

variable {parse : String → Option (Document → Bool)} {detector : DefaultPromotionDetector}
  {status : ℕ} {document : Document}

theorem inspectHtml_eq (hselector : detector.requiredSelector = none)
    (hstatus : isSuccess status = true) (hscript : selectAll "script" document ≠ []) :
    inspectHtml parse detector status document =
      if bodyLen textsAll document < detector.minVisibleText then some .emptyBodyLikelyJs
      else none := by
  obtain ⟨script, scripts, hscripts⟩ := List.exists_cons_of_ne_nil hscript
  by_cases hshort : bodyLen textsAll document < detector.minVisibleText
  · rw [if_pos hshort]
    rw [bodyLen] at hshort
    simp [inspectHtml, hselector, hstatus, hscripts, hshort]
  · rw [if_neg hshort]
    rw [bodyLen] at hshort
    simp [inspectHtml, hselector, hstatus, hscripts, hshort]

/-- A page is judged by its visible text exactly when its scripts and style sheets do not lift
the text over the minimum. -/
theorem script_text_decides (hselector : detector.requiredSelector = none)
    (hstatus : isSuccess status = true) (hscript : selectAll "script" document ≠ []) :
    (inspectHtml parse detector status document = some .emptyBodyLikelyJs ↔
        bodyLen visibleAll document < detector.minVisibleText) ↔
      ¬ (bodyLen visibleAll document < detector.minVisibleText ∧
        detector.minVisibleText ≤ bodyLen textsAll document) := by
  rw [inspectHtml_eq hselector hstatus hscript]
  have hle := bodyLen_visible_le document
  by_cases hshort : bodyLen textsAll document < detector.minVisibleText
  · rw [if_pos hshort]
    constructor
    · rintro - ⟨-, hlong⟩
      omega
    · intro _
      exact ⟨fun _ => by omega, fun _ => rfl⟩
  · rw [if_neg hshort]
    constructor
    · rintro hiff ⟨hvisible, -⟩
      cases hiff.mpr hvisible
    · intro hnot
      constructor
      · intro h
        cases h
      · intro hvisible
        exact absurd ⟨hvisible, by omega⟩ hnot

def inlineScript : Document :=
  [.element "html" [.element "body" [.element "script"
    [.text "window.__DATA__ = { items: [1, 2, 3, 4, 5] };".toList]]]]

theorem inlineScript_kept :
    selectAll "script" inlineScript ≠ [] ∧
      inspectHtml (fun _ => none) {} 200 inlineScript = none ∧
      ¬ (inspectHtml (fun _ => none) {} 200 inlineScript = some .emptyBodyLikelyJs ↔
        bodyLen visibleAll inlineScript < 40) := by
  decide +kernel

def externalScript : Document :=
  [.element "html" [.element "body" [.text "Loading".toList, .element "script" []]]]

theorem script_text_decides_externalScript :
    inspectHtml (fun _ => none) {} 200 externalScript = some .emptyBodyLikelyJs := by
  have hiff := @script_text_decides (fun _ => none) {} 200 externalScript rfl (by decide)
    (by decide +kernel)
  exact (hiff.mpr (by decide +kernel)).mpr (by decide +kernel)

end Millipede.Detect
