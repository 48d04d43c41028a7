import DocRules.Bytes
import DocRules.Rule

/-! # The content of a cached rule

A rule is written node by node, an operator before its operands and a loop before its body. The
flags of the leaves are not written, since they follow from the values. Before the rule stand the
number of its nodes and, if there is one, the digest of its source.
-/

namespace DocRules.Cache

open Bytes

/-- What is cached: a rule, the stated number of its nodes, and the digest of its source. -/
structure Payload where
  nodeCount : Nat
  sourceDigest : Option (List UInt8)
  rule : Rule

/-- A text is its length in bytes and its bytes. -/
def ofString (text : String) : List UInt8 :=
  ofCompact (ofText text).length ++ ofText text

/-- A value is the number of its kind and its content. -/
def ofValue : Value → List UInt8
  | .int n => ofCompact 0 ++ ofCompact (zigzag n.toInt)
  | .float x => ofCompact 1 ++ Bytes.ofNat 8 x.bits.toNat
  | .bool b => ofCompact 2 ++ [if b then 1 else 0]
  | .string text => ofCompact 3 ++ ofString text

/-- The number of an operator; the absent operator has none. -/
def operatorCode? : Operator → Option Nat
  | .and => some 0
  | .or => some 1
  | .eq => some 2
  | .ge => some 3
  | .gt => some 4
  | .le => some 5
  | .lt => some 6
  | .nil => none

/-- An expression, unless it has a node without an operator. -/
def ofExpr? : Expr → Option (List UInt8)
  | .leaf value _ => some (ofCompact 0 ++ ofValue value)
  | .binary operator lhs rhs => do
    let code ← operatorCode? operator
    let lhs ← ofExpr? lhs
    let rhs ← ofExpr? rhs
    return ofCompact 1 ++ ofCompact code ++ lhs ++ rhs

def ofHeader (header : LoopHeader) : List UInt8 :=
  ofString header.index ++ ofString header.start ++ ofString header.stop

def ofCondition? : Condition → Option (List UInt8)
  | .scalar expr => (ofExpr? expr).map (ofCompact 0 ++ ·)
  | .loop header body => (ofCondition? body).map (ofCompact 1 ++ ofHeader header ++ ·)

def ofRule? : Rule → Option (List UInt8)
  | .scalar condition => (ofCondition? condition).map (ofCompact 0 ++ ·)
  | .vector header condition => (ofCondition? condition).map (ofCompact 1 ++ ofHeader header ++ ·)

def ofDigest? : Option (List UInt8) → List UInt8
  | none => [0]
  | some digest => 1 :: digest

def Payload.toBytes? (payload : Payload) : Option (List UInt8) :=
  (ofRule? payload.rule).map
    (ofCompact payload.nodeCount ++ ofDigest? payload.sourceDigest ++ ·)

end DocRules.Cache
