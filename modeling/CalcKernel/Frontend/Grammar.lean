import CalcKernel.Frontend.Token
import Mathlib.Order.Nat

/-!
# The expression grammar

The trees of the language, the documented grammar of their spellings, and the
spelling with only the parentheses that it requires.

Levels count the binding strength: 1 to 6 are the binary operators, from `||` to
`*`, 7 is the unary operators and 8 the postfix forms.
-/

namespace CalcKernel

structure Lexeme where
  kind : TokenKind
  text : String
deriving DecidableEq, Repr

def Token.lexeme (token : Token) : Lexeme := ⟨token.kind, token.text⟩

/-- The lexeme of a kind with one spelling. -/
def TokenKind.lexeme (kind : TokenKind) : Lexeme := ⟨kind, kind.spelling?.getD ""⟩

inductive UnaryOperator where
  | not | negate
deriving DecidableEq, Repr

inductive BinaryOperator where
  | or | and | equal | notEqual | less | lessEqual | greater | greaterEqual
  | add | subtract | multiply | divide | remainder
deriving DecidableEq, Repr

/-- The language has no casts: conversions are calls. -/
inductive Tree where
  | identifier (name : String)
  | integer (text : String)
  | float (text : String)
  | bool (value : Bool)
  | unary (operator : UnaryOperator) (operand : Tree)
  | binary (operator : BinaryOperator) (left right : Tree)
  | call (callee : Tree) (args : List Tree)
  | sliceConstructor (data len : Tree)
  | field (object : Tree) (name : String)
  | index (object position : Tree)
  | subslice (slice start stop : Tree)

/-- Induction on trees, with the hypothesis for every argument of a call. -/
@[elab_as_elim]
theorem Tree.induction {P : Tree → Prop} (t : Tree)
    (identifier : ∀ name, P (.identifier name))
    (integer : ∀ text, P (.integer text))
    (float : ∀ text, P (.float text))
    (bool : ∀ value, P (.bool value))
    (unary : ∀ operator operand, P operand → P (.unary operator operand))
    (binary : ∀ operator left right, P left → P right → P (.binary operator left right))
    (call : ∀ callee args, P callee → (∀ arg ∈ args, P arg) → P (.call callee args))
    (sliceConstructor : ∀ data len, P data → P len → P (.sliceConstructor data len))
    (field : ∀ object name, P object → P (.field object name))
    (index : ∀ object position, P object → P position → P (.index object position))
    (subslice : ∀ slice start stop, P slice → P start → P stop →
      P (.subslice slice start stop)) : P t := by
  refine Tree.rec (motive_2 := fun args ↦ ∀ arg ∈ args, P arg) identifier integer float bool
    unary binary call sliceConstructor field index subslice ?_ ?_ t
  · intro arg harg
    cases harg
  · intro arg args harg hargs a ha
    rcases List.mem_cons.mp ha with rfl | ha
    · exact harg
    · exact hargs a ha

namespace UnaryOperator

def kind : UnaryOperator → TokenKind
  | .not => .bang
  | .negate => .minus

def lexeme (operator : UnaryOperator) : Lexeme := operator.kind.lexeme

def ofText? : String → Option UnaryOperator
  | "!" => some .not
  | "-" => some .negate
  | _ => none

end UnaryOperator

namespace BinaryOperator

def kind : BinaryOperator → TokenKind
  | .or => .pipePipe
  | .and => .ampAmp
  | .equal => .equalEqual
  | .notEqual => .bangEqual
  | .less => .less
  | .lessEqual => .lessEqual
  | .greater => .greater
  | .greaterEqual => .greaterEqual
  | .add => .plus
  | .subtract => .minus
  | .multiply => .star
  | .divide => .slash
  | .remainder => .percent

def lexeme (operator : BinaryOperator) : Lexeme := operator.kind.lexeme

/-- The documented order: `* / %`, `+ -`, ordered comparisons, equality, `&&`, `||`. -/
def level : BinaryOperator → Nat
  | .multiply | .divide | .remainder => 6
  | .add | .subtract => 5
  | .less | .lessEqual | .greater | .greaterEqual => 4
  | .equal | .notEqual => 3
  | .and => 2
  | .or => 1

def ofText? : String → Option BinaryOperator
  | "||" => some .or
  | "&&" => some .and
  | "==" => some .equal
  | "!=" => some .notEqual
  | "<" => some .less
  | "<=" => some .lessEqual
  | ">" => some .greater
  | ">=" => some .greaterEqual
  | "+" => some .add
  | "-" => some .subtract
  | "*" => some .multiply
  | "/" => some .divide
  | "%" => some .remainder
  | _ => none

theorem one_le_level (operator : BinaryOperator) : 1 ≤ operator.level := by
  cases operator <;> decide

theorem level_le (operator : BinaryOperator) : operator.level ≤ 6 := by
  cases operator <;> decide

end BinaryOperator

/-! ## Spellings -/

/-- The spellings with commas between them. -/
def separated : List (List Lexeme) → List Lexeme
  | [] => []
  | [lexemes] => lexemes
  | lexemes :: rest => lexemes ++ TokenKind.comma.lexeme :: separated rest

def boolLexeme (value : Bool) : Lexeme :=
  if value then TokenKind.kwTrue.lexeme else TokenKind.kwFalse.lexeme

def inParens (lexemes : List Lexeme) : List Lexeme :=
  TokenKind.leftParen.lexeme :: lexemes ++ [TokenKind.rightParen.lexeme]

def inBrackets (lexemes : List Lexeme) : List Lexeme :=
  TokenKind.leftBracket.lexeme :: lexemes ++ [TokenKind.rightBracket.lexeme]

/-- The documented grammar: what spells a tree at a level.  Binary operators associate
left, unary operators right. -/
inductive Derives : Nat → List Lexeme → Tree → Prop where
  | identifier (name : String) : Derives 8 [⟨.identifier, name⟩] (.identifier name)
  | integer (text : String) : Derives 8 [⟨.integer, text⟩] (.integer text)
  | float (text : String) : Derives 8 [⟨.float, text⟩] (.float text)
  | bool (value : Bool) : Derives 8 [boolLexeme value] (.bool value)
  | parens {ls t} : Derives 1 ls t → Derives 8 (inParens ls) t
  | sliceConstructor {ls ls' data len} : Derives 1 ls data → Derives 1 ls' len →
      Derives 8 (TokenKind.kwSlice.lexeme :: inParens (ls ++ TokenKind.comma.lexeme :: ls'))
        (.sliceConstructor data len)
  | call {ls callee} {args : List (List Lexeme × Tree)} : Derives 8 ls callee →
      (∀ arg ∈ args, Derives 1 arg.1 arg.2) →
      Derives 8 (ls ++ inParens (separated (args.map (·.1)))) (.call callee (args.map (·.2)))
  | field {ls object} (name : String) : Derives 8 ls object →
      Derives 8 (ls ++ [TokenKind.dot.lexeme, ⟨.identifier, name⟩]) (.field object name)
  | index {ls ls' object position} : Derives 8 ls object → Derives 1 ls' position →
      Derives 8 (ls ++ inBrackets ls') (.index object position)
  | subslice {ls ls₁ ls₂ slice start stop} : Derives 8 ls slice → Derives 1 ls₁ start →
      Derives 1 ls₂ stop →
      Derives 8 (ls ++ inBrackets (ls₁ ++ TokenKind.dotDot.lexeme :: ls₂))
        (.subslice slice start stop)
  | unary {ls operand} (operator : UnaryOperator) : Derives 7 ls operand →
      Derives 7 (operator.lexeme :: ls) (.unary operator operand)
  | binary {ls ls' left right} (operator : BinaryOperator) : Derives operator.level ls left →
      Derives (operator.level + 1) ls' right →
      Derives operator.level (ls ++ operator.lexeme :: ls') (.binary operator left right)
  | tighter {k ls t} : Derives (k + 1) ls t → Derives k ls t

theorem Derives.loosen {j k : Nat} {ls : List Lexeme} {t : Tree} (h : Derives j ls t)
    (hkj : k ≤ j) : Derives k ls t := by
  induction hkj with
  | refl => exact h
  | step _ ih => exact ih h.tighter

/-! ## The spelling with the fewest parentheses -/

namespace Tree

/-- The level of the outermost construct. -/
def level : Tree → Nat
  | .binary operator _ _ => operator.level
  | .unary _ _ => 7
  | _ => 8

mutual

/-- The spelling at a level, in parentheses only where the outermost construct binds weaker. -/
def minimal (k : Nat) : Tree → List Lexeme
  | .identifier name => [⟨.identifier, name⟩]
  | .integer text => [⟨.integer, text⟩]
  | .float text => [⟨.float, text⟩]
  | .bool value => [boolLexeme value]
  | .unary operator operand =>
      let lexemes := operator.lexeme :: minimal 7 operand
      if 7 < k then inParens lexemes else lexemes
  | .binary operator left right =>
      let lexemes := minimal operator.level left ++
        operator.lexeme :: minimal (operator.level + 1) right
      if operator.level < k then inParens lexemes else lexemes
  | .call callee args => minimal 8 callee ++ inParens (separated (minimalEach args))
  | .sliceConstructor data len =>
      TokenKind.kwSlice.lexeme :: inParens (minimal 1 data ++ TokenKind.comma.lexeme :: minimal 1 len)
  | .field object name => minimal 8 object ++ [TokenKind.dot.lexeme, ⟨.identifier, name⟩]
  | .index object position => minimal 8 object ++ inBrackets (minimal 1 position)
  | .subslice slice start stop => minimal 8 slice ++
      inBrackets (minimal 1 start ++ TokenKind.dotDot.lexeme :: minimal 1 stop)

def minimalEach : List Tree → List (List Lexeme)
  | [] => []
  | arg :: args => minimal 1 arg :: minimalEach args

end

example : (binary .multiply (binary .add (identifier "a") (identifier "b"))
    (identifier "c")).minimal 1 =
    [⟨.leftParen, "("⟩, ⟨.identifier, "a"⟩, ⟨.plus, "+"⟩, ⟨.identifier, "b"⟩, ⟨.rightParen, ")"⟩,
      ⟨.star, "*"⟩, ⟨.identifier, "c"⟩] := by
  rw [minimal]
  decide +kernel

theorem minimalEach_eq (args : List Tree) : minimalEach args = args.map (minimal 1) := by
  induction args with
  | nil => simp [minimalEach]
  | cons arg args ih => simp [minimalEach, ih]

/-- The minimal spelling is derived by the grammar. -/
theorem derives_minimal (t : Tree) (k : Nat) (hk : 1 ≤ k) (hk' : k ≤ 8) :
    Derives k (t.minimal k) t := by
  induction t using Tree.induction generalizing k with
  | identifier name =>
      rw [minimal]
      exact (Derives.identifier name).loosen hk'
  | integer text =>
      rw [minimal]
      exact (Derives.integer text).loosen hk'
  | float text =>
      rw [minimal]
      exact (Derives.float text).loosen hk'
  | bool value =>
      rw [minimal]
      exact (Derives.bool value).loosen hk'
  | unary operator operand ih =>
      have h := Derives.unary operator (ih 7 (by omega) (by omega))
      rw [minimal]
      split
      · exact (h.loosen (by omega : 1 ≤ 7)).parens.loosen hk'
      · exact h.loosen (by omega)
  | binary operator left right ihLeft ihRight =>
      have hlevel := operator.one_le_level
      have hlevel' := operator.level_le
      have h := Derives.binary operator (ihLeft operator.level (by omega) (by omega))
        (ihRight (operator.level + 1) (by omega) (by omega))
      rw [minimal]
      split
      · exact (h.loosen hlevel).parens.loosen hk'
      · exact h.loosen (by omega)
  | call callee args ih ihArgs =>
      have hargs : ∀ pair ∈ args.map (fun arg ↦ (arg.minimal 1, arg)),
          Derives 1 pair.1 pair.2 := by
        intro pair hpair
        obtain ⟨arg, harg, rfl⟩ := List.mem_map.mp hpair
        exact ihArgs arg harg 1 le_rfl (by omega)
      have h := (ih 8 (by omega) le_rfl).call hargs
      rw [minimal, minimalEach_eq]
      simpa [Function.comp_def] using h.loosen hk'
  | sliceConstructor data len ihData ihLen =>
      rw [minimal]
      exact (Derives.sliceConstructor (ihData 1 le_rfl (by omega))
        (ihLen 1 le_rfl (by omega))).loosen hk'
  | field object name ih =>
      rw [minimal]
      exact (Derives.field name (ih 8 (by omega) le_rfl)).loosen hk'
  | index object position ihObject ihPosition =>
      rw [minimal]
      exact (Derives.index (ihObject 8 (by omega) le_rfl)
        (ihPosition 1 le_rfl (by omega))).loosen hk'
  | subslice slice start stop ihSlice ihStart ihStop =>
      rw [minimal]
      exact (Derives.subslice (ihSlice 8 (by omega) le_rfl) (ihStart 1 le_rfl (by omega))
        (ihStop 1 le_rfl (by omega))).loosen hk'

/-- Parentheses are two lexemes, and they come with the level only. -/
theorem length_minimal (t : Tree) : ∃ n, ∀ k, (t.minimal k).length = if t.level < k ∧ t.level < 8
    then n + 2 else n := by
  cases t with
  | unary operator operand =>
      refine ⟨(operator.lexeme :: minimal 7 operand).length, fun k ↦ ?_⟩
      rw [minimal]
      by_cases hk : 7 < k <;> simp [level, hk, inParens]
  | binary operator left right =>
      refine ⟨(minimal operator.level left ++
        operator.lexeme :: minimal (operator.level + 1) right).length, fun k ↦ ?_⟩
      have hlevel := operator.level_le
      rw [minimal]
      by_cases hk : operator.level < k
      · simp [level, hk, inParens, show operator.level < 8 by omega]
        omega
      · simp [level, hk]
  | _ => exact ⟨_, fun k ↦ by simp [minimal, level]; rfl⟩

theorem length_minimal_mono (t : Tree) {j k : Nat} (hjk : j ≤ k) :
    (t.minimal j).length ≤ (t.minimal k).length := by
  obtain ⟨n, hn⟩ := t.length_minimal
  rw [hn, hn]
  split <;> split <;> omega

theorem length_minimal_le (t : Tree) (j k : Nat) :
    (t.minimal j).length ≤ (t.minimal k).length + 2 := by
  obtain ⟨n, hn⟩ := t.length_minimal
  rw [hn, hn]
  split <;> split <;> omega

end Tree

theorem length_separated_le {args : List (List Lexeme × Tree)} {f : Tree → List Lexeme}
    (h : ∀ arg ∈ args, (f arg.2).length ≤ arg.1.length) :
    (separated (args.map fun arg ↦ f arg.2)).length ≤
      (separated (args.map fun arg ↦ arg.1)).length := by
  induction args with
  | nil => exact le_rfl
  | cons arg args ih =>
      have harg := h arg List.mem_cons_self
      have hargs := ih fun a ha ↦ h a (List.mem_cons_of_mem _ ha)
      cases args with
      | nil => exact harg
      | cons next args =>
          simp only [List.map_cons, separated, List.length_append, List.length_cons] at hargs ⊢
          omega

/-- No spelling of a tree is shorter than the minimal one. -/
theorem Derives.minimal_shortest {k : Nat} {ls : List Lexeme} {t : Tree} (h : Derives k ls t) :
    (t.minimal k).length ≤ ls.length := by
  induction h with
  | identifier name => rw [Tree.minimal]
  | integer text => rw [Tree.minimal]
  | float text => rw [Tree.minimal]
  | bool value => rw [Tree.minimal]
  | @parens ls t _ ih =>
      have hle := t.length_minimal_le 8 1
      simp only [inParens, List.length_append, List.length_cons, List.length_nil]
      omega
  | sliceConstructor _ _ ih ih' =>
      simp only [Tree.minimal, inParens, List.length_append, List.length_cons, List.length_nil]
      omega
  | call _ _ ih ihArgs =>
      have hargs := length_separated_le ihArgs
      simp only [Tree.minimal, Tree.minimalEach_eq, List.map_map, Function.comp_def, inParens,
        List.length_append, List.length_cons, List.length_nil]
      omega
  | field name _ ih =>
      simp only [Tree.minimal, List.length_append, List.length_cons, List.length_nil]
      omega
  | index _ _ ih ih' =>
      simp only [Tree.minimal, inBrackets, List.length_append, List.length_cons, List.length_nil]
      omega
  | subslice _ _ _ ih ih₁ ih₂ =>
      simp only [Tree.minimal, inBrackets, List.length_append, List.length_cons, List.length_nil]
      omega
  | unary operator _ ih =>
      simp only [Tree.minimal, lt_irrefl, if_false, List.length_cons]
      omega
  | binary operator _ _ ih ih' =>
      simp only [Tree.minimal, lt_irrefl, if_false, List.length_append, List.length_cons]
      omega
  | @tighter k ls t _ ih => exact (t.length_minimal_mono k.le_succ).trans ih

end CalcKernel
