import LazyModules.Parse

/-!
# Derivations

The grammar of the language as derivation trees: one type for each nonterminal, one constructor for each
production. The thirteen productions of binary operators are one constructor with the operator as its
argument, and so are the two of unary operators. A tree holds its terminals, so that it can be asked

* for the tokens it derives (`yield`),
* for the syntax that the parse actions make of it (`meaning`),
* whether only lone names stand in parentheses before an arrow (`Lawful`), which is the one demand that the
  actions add to the productions,
* whether it is the derivation that the precedences choose among those of its tokens (`Preferred`).

The productions of binary operators, conditionals and functions are ambiguous without the precedences.
-/
namespace LazyModules

def Parse.Operator.mark : Parse.Operator → Mark
  | .binary .mul => .star
  | .binary .div => .slash
  | .binary .mod => .percent
  | .binary .add => .plus
  | .binary .sub => .minus
  | .binary .eq => .equal
  | .binary .ne => .unequal
  | .binary .lt => .less
  | .binary .le => .atMost
  | .binary .gt => .greater
  | .binary .ge => .atLeast
  | .connective .and => .both
  | .connective .or => .either

def UnaryOp.mark : UnaryOp → Mark
  | .neg => .negate
  | .not => .bang

namespace Grammar

open Parse (Operator)

/-- The nonterminals. A name is one of them, so that sequences of names are sequences like any other. -/
inductive Phrase where
  | module
  | directive
  | statements
  | declarations
  | declaration
  | expr
  | unary
  | suffixed
  | primary
  | parenthesized
  | field
  | name
  | items (x : Phrase)
  | some (x : Phrase)

/-- What the parse actions make of a phrase. -/
abbrev Phrase.Meaning : Phrase → Type
  | .module | .statements => ModuleSyntax
  | .directive => Import
  | .declarations => List Declaration
  | .declaration => Declaration
  | .expr | .unary | .suffixed | .primary | .parenthesized => Expr
  | .field => String × Expr
  | .name => String × Nat
  | .items x | .some x => List x.Meaning

/-- Derivation trees. The numbers are the offsets of the terminals, in the order of the production. -/
inductive Derivation : Phrase → Type where
  /-- `module -> statements` -/
  | plain : Derivation .statements → Derivation .module
  /-- `module -> import .module` -/
  | importing : Derivation .directive → Derivation .module → Derivation .module
  /-- `import -> name string` -/
  | directive : Derivation .name → (specifier : String) → Nat → Derivation .directive
  /-- `statements ->` -/
  | nothing : Derivation .statements
  /-- `statements -> expr` -/
  | bodyOnly : Derivation .expr → Derivation .statements
  /-- `statements -> declarations` -/
  | declarationsOnly : Derivation .declarations → Derivation .statements
  /-- `statements -> declarations expr` -/
  | declarationsBody : Derivation .declarations → Derivation .expr → Derivation .statements
  /-- `declarations -> declaration` -/
  | firstDeclaration : Derivation .declaration → Derivation .declarations
  /-- `declarations -> declarations declaration` -/
  | moreDeclarations : Derivation .declarations → Derivation .declaration → Derivation .declarations
  /-- `declaration -> name '=' expr` -/
  | declaration : Derivation .name → Nat → Derivation .expr → Derivation .declaration
  /-- `expr -> unary` -/
  | operand : Derivation .unary → Derivation .expr
  /-- `expr -> .expr .op .expr`, for each binary operator -/
  | binary : Derivation .expr → (op : Operator) → Nat → Derivation .expr → Derivation .expr
  /-- `expr -> .IF .expr THEN .expr ELSE .expr` -/
  | conditional : Nat → Derivation .expr → Nat → Derivation .expr → Nat → Derivation .expr →
      Derivation .expr
  /-- `expr -> .name .'=>' .expr` -/
  | lambdaOne : Derivation .name → Nat → Derivation .expr → Derivation .expr
  /-- `expr -> .parenthesized .'=>' .expr` -/
  | lambdaParen : Derivation .parenthesized → Nat → Derivation .expr → Derivation .expr
  /-- `expr -> '(' ')' .'=>' .expr` -/
  | lambdaNone : Nat → Nat → Nat → Derivation .expr → Derivation .expr
  /-- `expr -> '(' .name ',' .some(name) ')' .'=>' .expr` -/
  | lambdaMany : Nat → Derivation .name → Nat → Derivation (.some .name) → Nat → Nat →
      Derivation .expr → Derivation .expr
  /-- `unary -> postfix` -/
  | unsigned : Derivation .suffixed → Derivation .unary
  /-- `unary -> .op .unary`, for each unary operator -/
  | signed : (op : UnaryOp) → Nat → Derivation .unary → Derivation .unary
  /-- `postfix -> primary` -/
  | primary : Derivation .primary → Derivation .suffixed
  /-- `postfix -> .postfix .apply .items(expr) ')'` -/
  | call : Derivation .suffixed → Nat → Derivation (.items .expr) → Nat → Derivation .suffixed
  /-- `postfix -> .postfix '.' .name` -/
  | member : Derivation .suffixed → Nat → Derivation .name → Derivation .suffixed
  /-- `postfix -> .postfix .index .expr ']'` -/
  | subscript : Derivation .suffixed → Nat → Derivation .expr → Nat → Derivation .suffixed
  /-- `primary -> literal` -/
  | literal : (c : Constant) → Nat → Derivation .primary
  /-- `primary -> string` -/
  | string : (s : String) → Nat → Derivation .primary
  /-- `primary -> name` -/
  | lookup : Derivation .name → Derivation .primary
  /-- `primary -> parenthesized` -/
  | grouped : Derivation .parenthesized → Derivation .primary
  /-- `primary -> .'[' .items(expr) ']'` -/
  | list : Nat → Derivation (.items .expr) → Nat → Derivation .primary
  /-- `primary -> .'{' .items(field) '}'` -/
  | record : Nat → Derivation (.items .field) → Nat → Derivation .primary
  /-- `parenthesized -> '(' .expr ')'` -/
  | parens : Nat → Derivation .expr → Nat → Derivation .parenthesized
  /-- `field -> .name ':' .expr` -/
  | field : Derivation .name → Nat → Derivation .expr → Derivation .field
  | name : String → Nat → Derivation .name
  /-- `items(x) ->` -/
  | none {x : Phrase} : Derivation (.items x)
  /-- `items(x) -> .some(x)` -/
  | exactly {x : Phrase} : Derivation (.some x) → Derivation (.items x)
  /-- `items(x) -> .some(x) ','` -/
  | spare {x : Phrase} : Derivation (.some x) → Nat → Derivation (.items x)
  /-- `some(x) -> x` -/
  | first {x : Phrase} : Derivation x → Derivation (.some x)
  /-- `some(x) -> .some(x) ',' .x` -/
  | more {x : Phrase} : Derivation (.some x) → Nat → Derivation x → Derivation (.some x)

abbrev mark (m : Mark) (start : Nat) : Token := ⟨.mark m, start⟩

namespace Derivation

/-- The tokens that a derivation derives. -/
@[simp] def yield : {p : Phrase} → Derivation p → List Token
  | _, .plain d => d.yield
  | _, .importing i d => i.yield ++ d.yield
  | _, .directive n s i => n.yield ++ [⟨.string s, i⟩]
  | _, .nothing => []
  | _, .bodyOnly e => e.yield
  | _, .declarationsOnly ds => ds.yield
  | _, .declarationsBody ds e => ds.yield ++ e.yield
  | _, .firstDeclaration d => d.yield
  | _, .moreDeclarations ds d => ds.yield ++ d.yield
  | _, .declaration n i e => n.yield ++ mark .assign i :: e.yield
  | _, .operand u => u.yield
  | _, .binary l op i r => l.yield ++ mark op.mark i :: r.yield
  | _, .conditional i t j y k n =>
    mark .ifWord i :: t.yield ++ mark .thenWord j :: y.yield ++ mark .elseWord k :: n.yield
  | _, .lambdaOne n i e => n.yield ++ mark .arrow i :: e.yield
  | _, .lambdaParen p i e => p.yield ++ mark .arrow i :: e.yield
  | _, .lambdaNone i j k e => mark .openParen i :: mark .closeParen j :: mark .arrow k :: e.yield
  | _, .lambdaMany i n j ns k l e =>
    mark .openParen i :: n.yield ++ mark .comma j :: ns.yield ++ mark .closeParen k :: mark .arrow l :: e.yield
  | _, .unsigned p => p.yield
  | _, .signed op i u => mark op.mark i :: u.yield
  | _, .primary p => p.yield
  | _, .call f i args j => f.yield ++ mark .apply i :: args.yield ++ [mark .closeParen j]
  | _, .member p i n => p.yield ++ mark .dot i :: n.yield
  | _, .subscript p i e j => p.yield ++ mark .index i :: e.yield ++ [mark .closeBracket j]
  | _, .literal c i => [⟨.literal c, i⟩]
  | _, .string s i => [⟨.string s, i⟩]
  | _, .lookup n => n.yield
  | _, .grouped p => p.yield
  | _, .list i es j => mark .openBracket i :: es.yield ++ [mark .closeBracket j]
  | _, .record i fs j => mark .openBrace i :: fs.yield ++ [mark .closeBrace j]
  | _, .parens i e j => mark .openParen i :: e.yield ++ [mark .closeParen j]
  | _, .field n i e => n.yield ++ mark .colon i :: e.yield
  | _, .name s i => [⟨.name s, i⟩]
  | _, .none => []
  | _, .exactly s => s.yield
  | _, .spare s i => s.yield ++ [mark .comma i]
  | _, .first d => d.yield
  | _, .more s i d => s.yield ++ mark .comma i :: d.yield

/-- What the parse actions make of a derivation. -/
@[simp] def meaning : {p : Phrase} → Derivation p → p.Meaning
  | _, .plain d => d.meaning
  | _, .importing i d => let m : ModuleSyntax := d.meaning; { m with imports := i.meaning :: m.imports }
  | _, .directive n s _ => ⟨n.meaning.1, s⟩
  | _, .nothing => ⟨[], [], Option.none⟩
  | _, .bodyOnly e => ⟨[], [], some e.meaning⟩
  | _, .declarationsOnly ds => ⟨[], ds.meaning, Option.none⟩
  | _, .declarationsBody ds e => ⟨[], ds.meaning, some e.meaning⟩
  | _, .firstDeclaration d => [d.meaning]
  | _, .moreDeclarations ds d => ds.meaning ++ [d.meaning]
  | _, .declaration n _ e => ⟨n.meaning.1, e.meaning⟩
  | _, .operand u => u.meaning
  | _, .binary l op i r => op.build l.meaning r.meaning i
  | _, .conditional i t _ y _ n => .cond t.meaning y.meaning n.meaning i
  | _, .lambdaOne n i e => .lambda [n.meaning.1] e.meaning i
  | _, .lambdaParen p i e => .lambda (p.meaning.lookup?.toList) e.meaning i
  | _, .lambdaNone _ _ i e => .lambda [] e.meaning i
  | _, .lambdaMany _ n _ ns _ i e => .lambda (n.meaning.1 :: ns.meaning.map Prod.fst) e.meaning i
  | _, .unsigned p => p.meaning
  | _, .signed op i u => .unary op u.meaning i
  | _, .primary p => p.meaning
  | _, .call f i args _ => .call f.meaning args.meaning i
  | _, .member p _ n => .field p.meaning n.meaning.1 n.meaning.2
  | _, .subscript p i e _ => .subscript p.meaning e.meaning i
  | _, .literal c i => .literal c i
  | _, .string s i => .literal (.text s) i
  | _, .lookup n => .lookup n.meaning.1 n.meaning.2
  | _, .grouped p => p.meaning
  | _, .list i es _ => .list es.meaning i
  | _, .record i fs _ => .record fs.meaning i
  | _, .parens _ e _ => e.meaning
  | _, .field n _ e => (n.meaning.1, e.meaning)
  | _, .name s i => (s, i)
  | _, .none => []
  | _, .exactly s => s.meaning
  | _, .spare s _ => s.meaning
  | _, .first d => [d.meaning]
  | _, .more s _ d => s.meaning ++ [d.meaning]

/-- Whether an expression ends with a part that could have gone on: what comes after `else` or `=>`. -/
def isOpen : {p : Phrase} → Derivation p → Bool
  | _, .binary _ _ _ r => r.isOpen
  | _, .conditional _ _ _ _ _ _ => true
  | _, .lambdaOne _ _ _ => true
  | _, .lambdaParen _ _ _ => true
  | _, .lambdaNone _ _ _ _ => true
  | _, .lambdaMany _ _ _ _ _ _ _ => true
  | _, _ => false

/-- How tightly the topmost operator of an expression binds; more than any operator if there is none. -/
def level : Derivation .expr → Nat
  | .binary _ op _ _ => op.level
  | _ => 6

/-- What the precedences ask of an operator. What stands left of it does not end with a conditional or a
function, which would have reached over the operator; it binds at least as tightly as the operator does,
which groups operators of one level to the left; what stands right of it binds tighter. -/
def IsGrouped : Derivation .expr → Prop
  | .binary l op _ r => l.isOpen = false ∧ op.level ≤ l.level ∧ op.level < r.level
  | _ => True

/-- What the parse action asks of parentheses before an arrow: that they hold a lone name. -/
def HasLoneName : Derivation .expr → Prop
  | .lambdaParen p _ _ => p.meaning.lookup?.isSome
  | _ => True

/-- Whether every expression in a derivation is as `P` asks. -/
def Everywhere (P : Derivation .expr → Prop) : {p : Phrase} → Derivation p → Prop
  | _, .plain d => d.Everywhere P
  | _, .importing _ d => d.Everywhere P
  | _, .directive _ _ _ => True
  | _, .nothing => True
  | _, .bodyOnly e => e.Everywhere P
  | _, .declarationsOnly ds => ds.Everywhere P
  | _, .declarationsBody ds e => ds.Everywhere P ∧ e.Everywhere P
  | _, .firstDeclaration d => d.Everywhere P
  | _, .moreDeclarations ds d => ds.Everywhere P ∧ d.Everywhere P
  | _, .declaration _ _ e => e.Everywhere P
  | _, .operand u => P (.operand u) ∧ u.Everywhere P
  | _, .binary l op i r => P (.binary l op i r) ∧ l.Everywhere P ∧ r.Everywhere P
  | _, .conditional i t j y k n =>
    P (.conditional i t j y k n) ∧ t.Everywhere P ∧ y.Everywhere P ∧ n.Everywhere P
  | _, .lambdaOne n i e => P (.lambdaOne n i e) ∧ e.Everywhere P
  | _, .lambdaParen p i e => P (.lambdaParen p i e) ∧ p.Everywhere P ∧ e.Everywhere P
  | _, .lambdaNone i j k e => P (.lambdaNone i j k e) ∧ e.Everywhere P
  | _, .lambdaMany i n j ns k l e => P (.lambdaMany i n j ns k l e) ∧ e.Everywhere P
  | _, .unsigned p => p.Everywhere P
  | _, .signed _ _ u => u.Everywhere P
  | _, .primary p => p.Everywhere P
  | _, .call f _ args _ => f.Everywhere P ∧ args.Everywhere P
  | _, .member p _ _ => p.Everywhere P
  | _, .subscript p _ e _ => p.Everywhere P ∧ e.Everywhere P
  | _, .literal _ _ => True
  | _, .string _ _ => True
  | _, .lookup _ => True
  | _, .grouped p => p.Everywhere P
  | _, .list _ es _ => es.Everywhere P
  | _, .record _ fs _ => fs.Everywhere P
  | _, .parens _ e _ => e.Everywhere P
  | _, .field _ _ e => e.Everywhere P
  | _, .name _ _ => True
  | _, .none => True
  | _, .exactly s => s.Everywhere P
  | _, .spare s _ => s.Everywhere P
  | _, .first d => d.Everywhere P
  | _, .more s _ d => s.Everywhere P ∧ d.Everywhere P

/-- The derivation that the precedences choose. -/
abbrev Preferred {p : Phrase} (d : Derivation p) : Prop := d.Everywhere IsGrouped

/-- A derivation that the parse actions accept. -/
abbrev Lawful {p : Phrase} (d : Derivation p) : Prop := d.Everywhere HasLoneName

end Derivation

end Grammar

end LazyModules
