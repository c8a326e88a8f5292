import DiceNotation.Dice.Supply
import DiceNotation.Expression.Evaluation
import DiceNotation.Proofs.Gathering

/-!
# Templates

The notation of an expression and the traces of its evaluations have the same skeleton: numbers,
operators, parentheses, separators and comments. The skeleton is a text with a hole for every leaf.
It is a matter of the expression alone, so all evaluations share it, whatever is rolled and however
many dice are listed. With the notations of the leaves in its holes it is the notation of the
expression, and with the descriptions of what was rolled for them it is the trace.
-/

namespace DiceNotation

open Rolling

/-- A piece of a template. -/
inductive TemplatePiece where
  /-- A text that stands as it is. -/
  | text (text : String)
  /-- A hole for a text that is filled in. -/
  | hole
deriving DecidableEq, Repr

/-- A text with holes. -/
abbrev Template : Type := List TemplatePiece

namespace Template

/-- The number of holes. -/
def holes (template : Template) : Nat := template.count .hole

/-- The text that comes of filling the holes with some texts, in order. -/
def fill : Template → List String → String
  | [], _ => ""
  | .text text :: pieces, texts => text ++ fill pieces texts
  | .hole :: pieces, text :: texts => text ++ fill pieces texts
  | .hole :: pieces, [] => fill pieces []

/-- Templates joined by a separator. -/
def join (separator : String) : List Template → Template
  | [] => []
  | [template] => template
  | template :: templates => template ++ .text separator :: join separator templates

/-- The template of an operand, in parentheses if the operation around it asks for them. -/
def operand (around : Operation) (own : Option Operation) (template : Template) : Template :=
  match own with
  | some operation =>
    if operation ≠ around ∨ around = .power then .text "(" :: (template ++ [.text ")"])
    else template
  | none => template

/-- The template of an operation. -/
def operation (operation : Operation) (operands : List Template) : Template :=
  join (" " ++ operation.symbol ++ " ") operands

/-- A template with comments around it. -/
def commented (before after : Option String) (template : Template) : Template :=
  let opened := match before with
    | some comment => .text (comment ++ " : ") :: template
    | none => template
  match after with
  | some comment => opened ++ [.text (" # " ++ comment)]
  | none => opened

end Template

namespace Expression

mutual

/-- The template of an expression, with a hole for every leaf. -/
def template : Expression → Template
  | number value => [.text value.text]
  | dice _ => [.hole]
  | check _ => [.hole]
  | sum terms => .operation .sum (operandTemplates .sum terms)
  | product factors => .operation .product (operandTemplates .product factors)
  | power base exponent =>
    .operation .power
      [.operand .power base.operation? base.template,
        .operand .power exponent.operation? exponent.template]
  | list entries => .join listSeparator (templates entries)
  | commented body before after => .commented before after body.template

/-- The templates of the operands of an operation. -/
def operandTemplates (around : Operation) : List Expression → List Template
  | [] => []
  | operand :: operands =>
    .operand around operand.operation? operand.template :: operandTemplates around operands

/-- The templates of independent expressions. -/
def templates : List Expression → List Template
  | [] => []
  | entry :: entries => entry.template :: templates entries

end

end Expression

/-! ## Filling -/

namespace Template

/-- A template has a hole for each of some texts, and reads as another text when it is filled with
them. -/
structure Reads (template : Template) (texts : List String) (whole : String) : Prop where
  /-- There are as many holes as texts. -/
  holes : template.holes = texts.length
  /-- What comes of filling the holes. -/
  fill : template.fill texts = whole

/-- A text reads as itself. -/
theorem reads_text (text : String) : Reads [.text text] [] text :=
  ⟨rfl, String.append_empty⟩

/-- A hole reads as the text that fills it. -/
theorem reads_hole (text : String) : Reads [.hole] [text] text :=
  ⟨rfl, String.append_empty⟩

/-- The holes of the first of two templates are filled first. -/
theorem Reads.append {first second : Template} {texts others : List String} {front back : String}
    (h : first.Reads texts front) (h' : second.Reads others back) :
    (first ++ second).Reads (texts ++ others) (front ++ back) := by
  obtain ⟨hholes, rfl⟩ := h
  obtain ⟨hholes', rfl⟩ := h'
  refine ⟨?_, ?_⟩
  · rw [Template.holes, List.count_append, List.length_append, ← hholes, ← hholes']
    rfl
  · clear hholes'
    induction first generalizing texts with
    | nil =>
      obtain rfl : texts = [] := List.length_eq_zero_iff.1 hholes.symm
      exact String.empty_append.symm
    | cons piece pieces ih =>
      cases piece with
      | text text =>
        rw [List.cons_append, Template.fill, Template.fill, String.append_assoc]
        exact congrArg (text ++ ·) (ih hholes)
      | hole =>
        cases texts with
        | nil => simp [Template.holes] at hholes
        | cons text texts =>
          rw [List.cons_append, List.cons_append, Template.fill, Template.fill,
            String.append_assoc]
          exact congrArg (text ++ ·) (ih (by simpa [Template.holes] using hholes))

/-- A text in front of a template stays in front. -/
theorem Reads.cons_text {template : Template} {texts : List String} {whole : String}
    (h : template.Reads texts whole) (text : String) :
    Reads (.text text :: template) texts (text ++ whole) :=
  (reads_text text).append h

/-- A text behind a template stays behind. -/
theorem Reads.append_text {template : Template} {texts : List String} {whole : String}
    (h : template.Reads texts whole) (text : String) :
    Reads (template ++ [.text text]) texts (whole ++ text) := by
  have hboth := h.append (reads_text text)
  rwa [List.append_nil] at hboth

/-- Parentheses around an operand are part of the template. -/
theorem Reads.operand {template : Template} {texts : List String} {whole : String}
    (h : template.Reads texts whole) (around : Operation) (own : Option Operation) :
    (Template.operand around own template).Reads texts (operandText around own whole) := by
  cases own with
  | none => exact h
  | some operation =>
    rw [Template.operand, operandText]
    split
    · have hclosed := (h.append_text ")").cons_text "("
      rwa [← String.append_assoc] at hclosed
    · exact h

/-- Comments around an expression are part of the template. -/
theorem Reads.commented {template : Template} {texts : List String} {whole : String}
    (h : template.Reads texts whole) (before after : Option String) :
    (Template.commented before after template).Reads texts (commentedText before after whole) := by
  have hopened : ∀ comment : String,
      Reads (.text (comment ++ " : ") :: template) texts (comment ++ " : " ++ whole) :=
    fun comment => h.cons_text _
  have hclosed : ∀ {opened : Template} {text : String}, opened.Reads texts text →
      ∀ comment : String, Reads (opened ++ [.text (" # " ++ comment)]) texts
        (text ++ " # " ++ comment) := by
    intro opened text hopened comment
    rw [String.append_assoc]
    exact hopened.append_text _
  cases before with
  | none =>
    cases after with
    | none => exact h
    | some comment => exact hclosed h comment
  | some comment =>
    cases after with
    | none => exact hopened comment
    | some behind => exact hclosed (hopened comment) behind

/-- Joined templates read as the joined texts if each of them reads as the text in its place. -/
theorem Reads.join {α β : Type} {template : α → Template} {texts : β → List String}
    {whole : β → String} {as : List α} {bs : List β}
    (h : List.Forall₂ (fun a b => (template a).Reads (texts b) (whole b)) as bs)
    (separator : String) :
    (Template.join separator (as.map template)).Reads (bs.flatMap texts)
      (separator.intercalate (bs.map whole)) := by
  induction h with
  | nil => exact ⟨rfl, rfl⟩
  | @cons a b as bs hfirst hrest ih =>
    cases hrest with
    | nil =>
      rw [List.map_singleton, List.map_singleton, List.flatMap_singleton,
        String.intercalate_singleton]
      exact hfirst
    | cons =>
      rw [List.map_cons, List.map_cons, List.map_cons, List.map_cons,
        String.intercalate_cons_cons, String.append_assoc]
      exact hfirst.append (ih.cons_text separator)

end Template

/-! ## Notations -/

/-- The notation of a leaf. -/
def Leaf.text (leaf : Leaf) : String := leaf.expression.text

namespace Expression

/-- Entries have their templates one by one. -/
theorem templates_eq_map (entries : List Expression) :
    templates entries = entries.map template := by
  induction entries with
  | nil => rfl
  | cons entry entries ih => rw [templates, ih, List.map_cons]

/-- Operands have their templates one by one, each as its operation needs it. -/
theorem operandTemplates_eq_map (around : Operation) (operands : List Expression) :
    operandTemplates around operands =
      operands.map fun operand => .operand around operand.operation? operand.template := by
  induction operands with
  | nil => rfl
  | cons operand operands ih => rw [operandTemplates, ih, List.map_cons]

/-- The notations of the leaves of an expression, from left to right. -/
def leafTexts (expression : Expression) : List String := expression.leaves.map Leaf.text

/-- The notations of the leaves of operands are those of each operand. -/
theorem map_text_leavesOfAll (operands : List Expression) :
    (leavesOfAll operands).map Leaf.text = operands.flatMap leafTexts := by
  rw [leavesOfAll_eq, List.map_flatMap]
  rfl

/-- The template of an operation reads as its notation if those of the operands do. -/
theorem reads_operation {operands : List Expression}
    (h : ∀ operand ∈ operands, operand.template.Reads operand.leafTexts operand.text)
    (operation : Operation) :
    (Template.operation operation (operandTemplates operation operands)).Reads
      (operands.flatMap leafTexts)
      (operationText operation (operandTexts operation operands)) := by
  rw [operandTemplates_eq_map, operandTexts_eq_map]
  exact .join (List.forall₂_same.2 fun operand hoperand => (h operand hoperand).operand _ _) _

/-- With the notations of the leaves in its holes, the template of an expression is the notation of
the expression. -/
theorem reads_text (expression : Expression) :
    expression.template.Reads expression.leafTexts expression.text := by
  induction expression using Expression.induction with
  | number value => exact Template.reads_text _
  | dice set => exact Template.reads_hole _
  | check set => exact Template.reads_hole _
  | sum terms ih =>
    rw [leafTexts, leaves, map_text_leavesOfAll]
    exact reads_operation ih .sum
  | product factors ih =>
    rw [leafTexts, leaves, map_text_leavesOfAll]
    exact reads_operation ih .product
  | power base exponent hbase hexponent =>
    have hoperands : ∀ operand ∈ [base, exponent],
        operand.template.Reads operand.leafTexts operand.text :=
      List.forall_mem_cons.2 ⟨hbase, List.forall_mem_singleton.2 hexponent⟩
    have h := reads_operation hoperands .power
    rwa [List.flatMap_cons, List.flatMap_singleton, leafTexts, leafTexts, ← List.map_append] at h
  | list entries ih =>
    rw [leafTexts, leaves, map_text_leavesOfAll, template, text, templates_eq_map, texts_eq_map]
    exact .join (List.forall₂_same.2 ih) _
  | commented body before after ih => exact ih.commented before after

end Expression

/-! ## Traces -/

namespace Evaluated

mutual

/-- The rolled dice and checks in an evaluated expression, from left to right. -/
def leafTrees : Evaluated → List Evaluated
  | number _ => []
  | dice rolled => [.dice rolled]
  | check rolled => [.check rolled]
  | arithmetic _ operands => leafTreesOfAll operands
  | list entries => leafTreesOfAll entries
  | commented body _ _ => body.leafTrees

/-- The rolled dice and checks in several evaluated expressions, one expression after the other. -/
def leafTreesOfAll : List Evaluated → List Evaluated
  | [] => []
  | operand :: operands => operand.leafTrees ++ leafTreesOfAll operands

end

/-- The leaf trees of several trees are those of each of them. -/
theorem leafTreesOfAll_eq (operands : List Evaluated) :
    leafTreesOfAll operands = operands.flatMap leafTrees := by
  induction operands with
  | nil => rfl
  | cons operand operands ih => rw [leafTreesOfAll, ih, List.flatMap_cons]

/-- Operands are described one by one, each as its operation needs it. -/
theorem describeOperands_eq_map (limit : Option Nat) (around : Operation)
    (operands : List Evaluated) :
    describeOperands limit around operands =
      operands.map fun operand =>
        operandText around operand.operation? (operand.describe limit) := by
  induction operands with
  | nil => rfl
  | cons operand operands ih => rw [describeOperands, ih, List.map_cons]

/-- The descriptions of the rolled dice and checks in an evaluated expression, from left to
right. -/
def leafDescriptions (limit : Option Nat) (tree : Evaluated) : List String :=
  tree.leafTrees.map (describe limit)

/-- The descriptions of the leaves of operands are those of each operand. -/
theorem map_describe_leafTreesOfAll (limit : Option Nat) (operands : List Evaluated) :
    (leafTreesOfAll operands).map (describe limit) =
      operands.flatMap (leafDescriptions limit) := by
  rw [leafTreesOfAll_eq, List.map_flatMap]
  rfl

end Evaluated

/-- A tree has the same template as an expression: it is an operation of the same kind, was rolled
for its leaves one by one, and is described by what comes of filling in their descriptions. -/
structure Expression.SharesTemplate (expression : Expression) (tree : Evaluated) : Prop where
  /-- Both are operations of the same kind, or none is an operation. -/
  operation : tree.operation? = expression.operation?
  /-- Every leaf of the tree was rolled for the leaf in its place. -/
  leaves : List.Forall₂ (fun leaf rolled => leaf.expression.Becomes rolled) expression.leaves
    tree.leafTrees
  /-- What comes of filling in the descriptions. -/
  reads : ∀ limit, expression.template.Reads (tree.leafDescriptions limit) (tree.describe limit)

namespace Expression

/-- The leaves of several trees were rolled for those of their expressions. -/
theorem forall₂_leaves {operands : List Expression} {trees : List Evaluated}
    (h : List.Forall₂ SharesTemplate operands trees) :
    List.Forall₂ (fun leaf rolled => leaf.expression.Becomes rolled) (leavesOfAll operands)
      (Evaluated.leafTreesOfAll trees) := by
  induction h with
  | nil => exact .nil
  | cons hfirst _ ih => exact List.rel_append hfirst.leaves ih

/-- An operation shares its template with its tree if the operands do so with theirs. -/
theorem reads_arithmetic {operands : List Expression} {trees : List Evaluated}
    (h : List.Forall₂ SharesTemplate operands trees) (operation : Operation) (limit : Option Nat) :
    (Template.operation operation (operandTemplates operation operands)).Reads
      ((Evaluated.arithmetic operation trees).leafDescriptions limit)
      ((Evaluated.arithmetic operation trees).describe limit) := by
  rw [operandTemplates_eq_map, Evaluated.leafDescriptions, Evaluated.leafTrees,
    Evaluated.map_describe_leafTreesOfAll, Evaluated.describe, Evaluated.describeOperands_eq_map]
  refine .join (h.imp fun operand tree hshared => ?_) _
  rw [hshared.operation]
  exact (hshared.reads limit).operand _ _

/-- Evaluating several expressions that share their templates with their trees. -/
theorem forall₂_sharesTemplate {entries : List Expression} {shown : List ShownDie}
    {trees : List Evaluated}
    (ih : ∀ entry ∈ entries, ∀ tree, entry.Becomes tree → entry.SharesTemplate tree)
    (h : (evaluateAll entries).Ends shown trees) : List.Forall₂ SharesTemplate entries trees :=
  ((List.forall₂_and_left _ _).2 ⟨ih, forall₂_of_ends_evaluateAll h⟩).imp
    fun _ tree hboth => hboth.1 tree hboth.2

/-- An expression shares its template with every tree that it can become. -/
theorem sharesTemplate_of_becomes (expression : Expression) :
    ∀ tree, expression.Becomes tree → expression.SharesTemplate tree := by
  induction expression using Expression.induction with
  | number value =>
    rintro tree ⟨shown, h⟩
    obtain ⟨-, rfl⟩ := ends_pure_iff.1 h
    exact ⟨rfl, .nil, fun limit => Template.reads_text _⟩
  | dice set =>
    intro tree h
    obtain ⟨shown, hends⟩ := id h
    obtain ⟨rolled, -, rfl⟩ := ends_bind_pure_iff.1 hends
    exact ⟨rfl, .cons h .nil, fun limit => Template.reads_hole _⟩
  | check set =>
    intro tree h
    obtain ⟨shown, hends⟩ := id h
    obtain ⟨rolled, -, rfl⟩ := ends_bind_pure_iff.1 hends
    exact ⟨rfl, .cons h .nil, fun limit => Template.reads_hole _⟩
  | sum terms ih =>
    rintro tree ⟨shown, h⟩
    obtain ⟨trees, htrees, rfl⟩ := ends_bind_pure_iff.1 h
    have hshared := forall₂_sharesTemplate ih htrees
    exact ⟨rfl, forall₂_leaves hshared, reads_arithmetic hshared .sum⟩
  | product factors ih =>
    rintro tree ⟨shown, h⟩
    obtain ⟨trees, htrees, rfl⟩ := ends_bind_pure_iff.1 h
    have hshared := forall₂_sharesTemplate ih htrees
    exact ⟨rfl, forall₂_leaves hshared, reads_arithmetic hshared .product⟩
  | power base exponent hbase hexponent =>
    rintro tree ⟨shown, h⟩
    obtain ⟨left, first, second, hleft, hrest, rfl⟩ := ends_bind_iff.1 h
    obtain ⟨right, hright, rfl⟩ := ends_bind_pure_iff.1 hrest
    have hshared : List.Forall₂ SharesTemplate [base, exponent] [left, right] :=
      .cons (hbase left ⟨first, hleft⟩) (.cons (hexponent right ⟨second, hright⟩) .nil)
    have hleaves := forall₂_leaves hshared
    rw [leavesOfAll, leavesOfAll, leavesOfAll, List.append_nil] at hleaves
    exact ⟨rfl, hleaves, reads_arithmetic hshared .power⟩
  | list entries ih =>
    rintro tree ⟨shown, h⟩
    obtain ⟨trees, htrees, rfl⟩ := ends_bind_pure_iff.1 h
    have hshared := forall₂_sharesTemplate ih htrees
    refine ⟨rfl, forall₂_leaves hshared, fun limit => ?_⟩
    rw [template, templates_eq_map, Evaluated.leafDescriptions, Evaluated.leafTrees,
      Evaluated.map_describe_leafTreesOfAll, Evaluated.describe, Evaluated.describeList_eq_map]
    exact .join (hshared.imp fun entry tree h => h.reads limit) _
  | commented body before after ih =>
    rintro tree ⟨shown, h⟩
    obtain ⟨inner, hinner, rfl⟩ := ends_bind_pure_iff.1 h
    have hshared := ih inner ⟨shown, hinner⟩
    refine ⟨rfl, ?_, fun limit => ?_⟩
    · rw [leaves, Evaluated.leafTrees]
      exact hshared.leaves
    · rw [Evaluated.leafDescriptions, Evaluated.leafTrees, Evaluated.describe]
      exact (hshared.reads limit).commented before after

/-- An expression has one template with a hole for every leaf. Filled with the notations of the
leaves it is the notation of the expression, and for every evaluation that succeeds, filled with the
descriptions of what was rolled for the leaves, it is the trace. -/
theorem fill_template {σ : Type} {source : Source σ} {state : σ} {expression : Expression}
    {tree : Evaluated} (h : (expression.evaluate.run source state).result = .ok tree) :
    expression.template.holes = expression.leaves.length ∧
      List.Forall₂ (fun leaf rolled => leaf.expression.Becomes rolled) expression.leaves
        tree.leafTrees ∧
      expression.template.fill (expression.leaves.map Leaf.text) = expression.text ∧
      ∀ limit, expression.template.fill (tree.leafTrees.map (Evaluated.describe limit)) =
        tree.describe limit := by
  have hshared := expression.sharesTemplate_of_becomes tree ⟨_, (ends_of_run h).1⟩
  have htext := expression.reads_text
  refine ⟨?_, hshared.leaves, htext.fill, fun limit => (hshared.reads limit).fill⟩
  rw [htext.holes, leafTexts, List.length_map]

/-- The notation and the trace of two entries, of which the first has a comment, with one die
listed of each set. -/
theorem fill_template_attack :
    let expression := list [commented (product [sum [dice ⟨2, 6, none⟩, number (.integer (-1))],
      check ⟨⟨1, 8, none⟩, ⟨.atLeast, 5⟩⟩]) (some "attack") none,
      power (number (.integer 2)) (dice ⟨1, 4, none⟩)]
    let tree := Evaluated.list [.commented (.arithmetic .product
      [.arithmetic .sum [.dice ⟨⟨2, 6, none⟩, [⟨5, none, none⟩, ⟨2, none, none⟩]⟩,
        .number (.integer (-1))],
      .check ⟨⟨⟨1, 8, none⟩, [⟨6, none, none⟩]⟩, ⟨.atLeast, 5⟩⟩]) (some "attack") none,
      .arithmetic .power [.number (.integer 2), .dice ⟨⟨1, 4, none⟩, [⟨3, none, none⟩]⟩]]
    let template : Template := [.text "attack : ", .text "(", .hole, .text " + ", .text "-1",
      .text ")", .text " * ", .hole, .text ",  ", .text "2", .text " ^ ", .hole]
    (expression.evaluate.run Supply.source (.listed [5, 2, 6, 3])).result = .ok tree ∧
      expression.template = template ∧
      template.fill ["2d6", "(1d8 >= 5)", "1d4"] = expression.text ∧
      template.fill ["(5 + 1 more... => **7**)", "(**6** => **1 hit**)", "(**3**)"] =
        tree.describe (some 1) := by
  intro expression tree template
  have htree : (expression.evaluate.run Supply.source (.listed [5, 2, 6, 3])).result = .ok tree :=
    rfl
  have htemplate : expression.template = template := by cbv
  have htexts : expression.leaves.map Leaf.text = ["2d6", "(1d8 >= 5)", "1d4"] := by cbv
  have hdescriptions : tree.leafTrees.map (Evaluated.describe (some 1)) =
      ["(5 + 1 more... => **7**)", "(**6** => **1 hit**)", "(**3**)"] := rfl
  obtain ⟨-, -, htext, htrace⟩ := fill_template htree
  rw [htemplate] at htext htrace
  rw [← htexts, ← hdescriptions]
  exact ⟨htree, htemplate, htext, htrace (some 1)⟩

end Expression

end DiceNotation
