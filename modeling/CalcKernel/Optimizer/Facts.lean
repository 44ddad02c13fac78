import CalcKernel.Frontend.Ast
import CalcKernel.Kir.Value

/-!
# Facts

Facts about one function, with the part of it in which they may be used and where
they come from.  An arena holds them in the order of their identities.
-/

namespace CalcKernel

abbrev ContractInstanceId := Nat

inductive FactOrigin where
  | proven
  | trustedContract (instance_ : ContractInstanceId)
deriving DecidableEq, Repr

inductive FactScope where
  | functionEntry (function : FunctionId)
  | block (function : FunctionId) (block : BlockId)
  | calleeInstance (instance_ : ContractInstanceId) (callee : FunctionId)
  | inlineClone (function : FunctionId) (clone : Nat) (blocks : List BlockId)
deriving DecidableEq, Repr

/-- A closed interval of integers, never empty. -/
structure ScalarInterval where
  lower : Int
  upper : Int
  valid : lower ≤ upper
deriving DecidableEq, Repr

def ScalarInterval.Contains (i : ScalarInterval) (x : Int) : Prop := i.lower ≤ x ∧ x ≤ i.upper

instance (i : ScalarInterval) (x : Int) : Decidable (i.Contains x) :=
  inferInstanceAs (Decidable (_ ∧ _))

inductive ContractFactAffineTerm where
  | value (value : ValueId)
  | sliceLength (slice : ValueId)
deriving DecidableEq, Repr

structure ContractFactAffineTermCoefficient where
  term : ContractFactAffineTerm
  coefficient : Int
deriving DecidableEq, Repr

structure ContractFactAffineExpression where
  terms : List ContractFactAffineTermCoefficient
  constant : Int
deriving DecidableEq, Repr

inductive ContractFactPointer where
  | value (value : ValueId)
  | sliceData (slice : ValueId)
deriving DecidableEq, Repr

inductive ContractFactPredicate where
  | comparison (operator : String) (left right : ContractFactAffineExpression)
  | multipleOf (value : ContractFactAffineExpression) (modulus : Int)
  | noAlias (left right : ValueId)
  | aligned (pointer : ContractFactPointer) (alignment : Nat)
  | effectCeiling (isNone : Bool) (items : List (ValueId × ContractEffectKind))
deriving DecidableEq, Repr

inductive FactPredicate where
  | valueInterval (value : ValueId) (interval : ScalarInterval)
  | contract (predicate : ContractFactPredicate)
deriving DecidableEq, Repr

inductive FactDerivation where
  | trustedContractLeaf
  | constant (instruction : InstructionId)
  | binaryTransfer (instruction : InstructionId) (inputs : List FactId)
  | branchRefinement (predecessor : BlockId) (comparison : InstructionId) (input : FactId)
      (taken : Bool)
  | loopInvariant (header : BlockId) (entry transfer : FactId)
deriving DecidableEq, Repr

def FactDerivation.dependencies : FactDerivation → List FactId
  | .trustedContractLeaf | .constant _ => []
  | .binaryTransfer _ inputs => inputs
  | .branchRefinement _ _ input _ => [input]
  | .loopInvariant _ entry transfer => [entry, transfer]

structure Fact where
  id : FactId
  origin : FactOrigin
  scope : FactScope
  predicate : FactPredicate
  derivation : FactDerivation
  generation : Nat
deriving DecidableEq, Repr

structure FactArena where
  generation : Nat
  facts : List Fact
deriving DecidableEq, Repr

def FactArena.get (arena : FactArena) (id : FactId) : Option Fact := arena.facts[id]?

end CalcKernel
