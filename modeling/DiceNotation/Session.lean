import DiceNotation.Building
import DiceNotation.Expression.Evaluation

/-!
# Sessions and outcomes

A session holds an expression and the result of its latest evaluation. Its outcome gathers the
notation, the trace and the value of the whole and of every entry, with the comments of an entry
apart from it. Rolling a text reads it, builds its expression, evaluates it once and gathers the
outcome; what is wrong with the text itself is reported before any die is asked for.
-/

namespace DiceNotation

/-- Why a text has no outcome. -/
inductive RollError where
  /-- The text does not match the grammar. -/
  | malformed (error : SyntaxError)
  /-- The text matches the grammar, but a part of it breaks a rule. -/
  | meaningless (error : BuildError)
  /-- There has been no evaluation yet. -/
  | notEvaluated
  /-- Dice could not be rolled. -/
  | evaluation (error : EvaluationError)
  /-- The value could not be calculated. -/
  | calculation (error : ArithmeticError)

namespace RollError

/-- The wording of an error. -/
def message : RollError → String
  | malformed error => error.message
  | meaningless error => error.message
  | notEvaluated => "the expression hasn't been evaluated yet"
  | evaluation error => error.message
  | calculation error => error.message

/-- Whether the text is at fault, and not what happened while it was rolled. -/
def isUserError : RollError → Bool
  | malformed _ => true
  | meaningless _ => true
  | _ => false

/-- The answer to whoever wrote the text. -/
def reply : RollError → String
  | malformed error =>
    "Sorry, I don't understand! I think the error might be here:\n\n```\n" ++ error.window ++
      "\n\n" ++ error.message ++ "\n```"
  | meaningless error => "Sorry, I can't roll that: " ++ error.message
  | error => "Something broke 😭😭😭\n```" ++ error.message ++ "```"

end RollError

/-- The outcome of an entry. -/
structure EntryOutcome where
  /-- The comment before the entry. -/
  before : Option String
  /-- The comment behind the entry. -/
  after : Option String
  /-- The notation of the entry without its comments. -/
  text : String
  /-- The trace of the entry without its comments. -/
  trace : String
  /-- The value of the entry. -/
  value : Value

/-- The outcome of an expression. -/
structure Outcome where
  /-- The notation of the expression. -/
  text : String
  /-- The trace of its evaluation. -/
  trace : String
  /-- Its value. -/
  value : Value
  /-- The outcomes of its entries, in order. -/
  entries : List EntryOutcome

namespace EntryOutcome

/-- The outcome of an entry, from its expression and its evaluation. -/
def of (expression : Expression) (evaluated : Evaluated) : Except ArithmeticError EntryOutcome :=
  match expression, evaluated with
  | .commented body before after, .commented rolled _ _ => do
    return ⟨before, after, body.text, rolled.trace, ← rolled.value⟩
  | _, _ => return ⟨none, none, expression.text, evaluated.trace, ← evaluated.value⟩

/-- The outcomes of entries, from their expressions and evaluations. -/
def ofAll : List Expression → List Evaluated → Except ArithmeticError (List EntryOutcome)
  | expression :: expressions, evaluated :: evaluations => do
    let entry ← of expression evaluated
    return entry :: (← ofAll expressions evaluations)
  | _, _ => .ok []

/-- The line that shows an entry. -/
def line (entry : EntryOutcome) : String :=
  let opened := match entry.before with
    | some comment => comment ++ ":   "
    | none => ""
  let closed := match entry.after with
    | some comment => "   # " ++ comment
    | none => ""
  opened ++ entry.text ++ "   ::   " ++ entry.trace ++ "   =>   got **" ++ entry.value.text ++
    "**" ++ closed

end EntryOutcome

namespace Outcome

/-- The outcomes of the entries of an expression; anything but a list is a single entry. -/
def entriesOf (expression : Expression) (evaluated : Evaluated) :
    Except ArithmeticError (List EntryOutcome) :=
  match expression, evaluated with
  | .list expressions, .list evaluations => EntryOutcome.ofAll expressions evaluations
  | _, _ => return [← EntryOutcome.of expression evaluated]

/-- The outcome of an expression and its evaluation. -/
def of (expression : Expression) (evaluated : Evaluated) : Except ArithmeticError Outcome := do
  let entries ← entriesOf expression evaluated
  return ⟨expression.text, evaluated.trace, ← evaluated.value, entries⟩

/-- The lines that show an outcome, one for each entry. -/
def display (outcome : Outcome) : String :=
  "\n".intercalate (outcome.entries.map EntryOutcome.line)

end Outcome

/-- The expression of a text. -/
def Expression.ofText (text : String) : Except RollError Expression := do
  let entries ← (readEntries text).mapError .malformed
  (Expression.ofEntries entries).mapError .meaningless

/-- An expression and the result of its latest evaluation. -/
structure Session where
  /-- The expression. -/
  expression : Expression
  /-- The result of the latest evaluation that succeeded. -/
  latest : Option Evaluated

namespace Session

/-- A session in which nothing has been evaluated. -/
def start (expression : Expression) : Session := ⟨expression, none⟩

/-- Evaluates the expression. -/
def evaluate (session : Session) : Rolling RollError Session := do
  let evaluated ← session.expression.evaluate.mapError .evaluation
  return { session with latest := some evaluated }

/-- The session after an evaluation on a source, which keeps the latest result if it fails. -/
def evaluateOn {σ : Type} (source : Source σ) (session : Session) (state : σ) : Session :=
  match (session.evaluate.run source state).result with
  | .ok session => session
  | .error _ => session

/-- The result of the latest evaluation. -/
def evaluated (session : Session) : Except RollError Evaluated :=
  match session.latest with
  | some evaluated => .ok evaluated
  | none => .error .notEvaluated

/-- The notation of the expression. -/
def text (session : Session) : String := session.expression.text

/-- The trace of the latest evaluation. -/
def trace (session : Session) : Except RollError String := do
  return (← session.evaluated).trace

/-- The value of the latest evaluation. -/
def value (session : Session) : Except RollError Value := do
  (← session.evaluated).value.mapError .calculation

/-- The outcome of the latest evaluation. -/
def outcome (session : Session) : Except RollError Outcome := do
  (Outcome.of session.expression (← session.evaluated)).mapError .calculation

end Session

/-- Rolls a text once. -/
def rollText (text : String) : Rolling RollError Outcome := do
  let expression ← .ofExcept (Expression.ofText text)
  let session ← (Session.start expression).evaluate
  .ofExcept session.outcome

end DiceNotation
