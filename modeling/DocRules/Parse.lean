import DocRules.Parse.Reduction

/-! # Reading rule text

A rule is `IF:` and a condition, with a loop header before it for a vector rule and an empty
`THEN:` block after it or not. A condition stands in braces and is a body of words, or `FOR:`, a
header and a condition. Reading goes once over the tokens of the text; the offset of its end is
needed for errors only.
-/

namespace DocRules

namespace Parse

def expect (finish : Nat) (wanted : Token) : List Lexeme → Except ParseError (List Lexeme)
  | [] => .error (.unexpected (.token wanted) none finish)
  | lexeme :: rest =>
    if lexeme.token = wanted then .ok rest
    else .error (.unexpected (.token wanted) (some lexeme.token) lexeme.start)

/-- The loop header that a token writes. -/
def header? : Token → Option LoopHeader
  | .word text => LoopHeader.ofWord? text
  | _ => none

def header (finish : Nat) : List Lexeme → Except ParseError (LoopHeader × List Lexeme)
  | [] => .error (.unexpected .header none finish)
  | lexeme :: rest =>
    match header? lexeme.token with
    | some header => .ok (header, rest)
    | none => .error (.unexpected .header (some lexeme.token) lexeme.start)

/-- Read the words of a body up to the brace that closes it. -/
def body (pending : Reduction) : List Lexeme → Except ParseError (Expr × List Lexeme)
  | [] => .error (.malformed .conditionUnterminated)
  | lexeme :: rest =>
    match lexeme.token with
    | .closeBrace => do return (← pending.finish, rest)
    | .word text => do body (← pending.push text) rest
    | token => .error (.unexpected (.token .closeBrace) (some token) lexeme.start)

/-- Read a condition in which at most so many loops nest. -/
def condition (finish loops : Nat) (lexemes : List Lexeme) :
    Except ParseError (Condition × List Lexeme) := do
  let inner ← expect finish .openBrace lexemes
  match inner with
  | [] => .error (.malformed .conditionEnds)
  | next :: rest =>
    if next.token = .forMark then
      let (header, rest) ← header finish rest
      match loops with
      | 0 => .error (.malformed .loopsTooDeep)
      | loops + 1 =>
        let (body, rest) ← condition finish loops rest
        let rest ← expect finish .closeBrace rest
        return (.loop header body, rest)
    else
      let (expr, rest) ← body .empty inner
      return (.scalar expr, rest)

/-- Read the empty block that may follow a condition. -/
def action (finish : Nat) : List Lexeme → Except ParseError (List Lexeme)
  | [] => .ok []
  | lexeme :: rest =>
    if lexeme.token = .thenMark then do expect finish .closeBrace (← expect finish .openBrace rest)
    else .ok (lexeme :: rest)

/-- Read what follows `IF:` in a rule. -/
def guarded (finish : Nat) (lexemes : List Lexeme) :
    Except ParseError (Condition × List Lexeme) := do
  let (condition, rest) ← condition finish maxLoopDepth lexemes
  return (condition, ← action finish rest)

def rule (finish : Nat) : List Lexeme → Except ParseError (Rule × List Lexeme)
  | [] => .error (.malformed .emptyRule)
  | first :: rest =>
    match first.token with
    | .ifMark => do
      let (condition, rest) ← guarded finish rest
      return (.scalar condition, rest)
    | .forMark => do
      let (header, rest) ← header finish rest
      let (condition, rest) ← guarded finish (← expect finish .ifMark rest)
      return (.vector header condition, rest)
    | _ => .error (.malformed .noRuleStart)

/-- Read a rule that consists of all the tokens. -/
def whole (finish : Nat) (lexemes : List Lexeme) : Except ParseError Rule := do
  match ← rule finish lexemes with
  | (rule, []) => return rule
  | _ => .error (.malformed .textAfterRule)

end Parse

/-- The rule that a text writes. -/
def Rule.parse (text : String) : Except ParseError Rule :=
  Parse.whole (Text.byteLength text.toList) (Lexeme.ofText text)

end DocRules
