import CalcKernel.Kir.Semantics
import CalcKernel.Optimizer.ScalarDomain

/-!
# Checked steps

What the certificate checker keeps of the steps it has accepted, and what a contract fact
says of the values of a run.
-/

namespace CalcKernel

structure ScalarClaim where
  value : ValueId
  interval : ScalarInterval
  failure : ScalarFailure
deriving DecidableEq, Repr

inductive ScalarProofScope where
  | everywhere
  | block (block : BlockId)
  | blocks (blocks : List BlockId)
  | edge (predecessor target : BlockId) (taken : Bool)
deriving DecidableEq, Repr

inductive CheckedStep where
  | scalar (claim : ScalarClaim) (scope : ScalarProofScope)
  | fact (predicate : FactPredicate) (scope : ScalarProofScope)
  | boolean (value : ValueId) (result : Bool) (scope : ScalarProofScope)
  | guardSafety
  | inductionEquality
  | canonicalLoop (loopId : LoopId) (header : BlockId) (blocks : List BlockId)
  | loopTripCount
deriving DecidableEq, Repr

/-! ## Facts about a run -/

def ContractFactAffineTerm.eval (env : Env) : ContractFactAffineTerm → Option Int
  | .value v => intOperand env v
  | .sliceLength slice => (sliceOperand env slice).map (·.2)

def ContractFactAffineExpression.eval (env : Env) (e : ContractFactAffineExpression) :
    Option Int :=
  (e.terms.mapM fun t : ContractFactAffineTermCoefficient ↦
    (t.term.eval env).map (t.coefficient * ·)).map fun xs ↦ xs.sum + e.constant

def comparisonHolds (operator : String) (x y : Int) : Prop :=
  (operator = "<" → x < y) ∧ (operator = "<=" → x ≤ y) ∧ (operator = ">" → y < x) ∧
    (operator = ">=" → y ≤ x) ∧ (operator = "==" → x = y) ∧ (operator = "!=" → x ≠ y)

/-- The comparison that a contract fact makes holds of the values of a run. -/
def ContractFactPredicate.HoldsIn (env : Env) : ContractFactPredicate → Prop
  | .comparison operator left right =>
      ∀ x y, left.eval env = some x → right.eval env = some y → comparisonHolds operator x y
  | _ => True

/-- The contract facts among the steps hold. -/
def FactsHoldIn (env : Env) (premises : List CheckedStep) : Prop :=
  ∀ predicate scope, .fact (.contract predicate) scope ∈ premises → predicate.HoldsIn env

end CalcKernel
