import LoxMachine.Proofs.Token.Scanned
import LoxMachine.Tree.Statement

/-!
# The grammar of modules

`Derives` is the context-free grammar of modules over the kinds of token; it
leaves open to which `if` an `else` belongs.  `Reads` adds the tree and the node
numbers: an `else` goes to the nearest `if`, binary operators associate to the
left and assignments to the right.
-/

namespace LoxMachine.Grammar

open LoxMachine.Parser

/-- The operators of each level, from the loosest to the tightest. -/
def operators : Nat → List Kind
  | 1 => [.keyword .orWord]
  | 2 => [.keyword .andWord]
  | 3 => [.equalEqual, .bangEqual]
  | 4 => [.less, .lessEqual, .greater, .greaterEqual]
  | 5 => [.plus, .minus]
  | 6 => [.star, .slash]
  | _ => []

/-- The kinds of token that are literals by themselves. -/
def literals : List Kind :=
  [.keyword .nilWord, .keyword .falseWord, .keyword .trueWord, .number, .string]

/-! ## Sequences of kinds -/

/-- What a sequence of kinds can be. Level seven holds the operands of the tightest
operators. -/
inductive Symbol where
  | module
  | declarations
  | declaration
  | variable
  | function
  | methods
  | parameters
  | names
  | statement
  | initializer
  | optional
  | expression
  | level (k : Nat)
  | unary
  | call
  | primary
  | arguments
  | expressions

inductive Derives : Symbol → List Kind → Prop where
  | module {w} : Derives .declarations w → Derives .module (w ++ [.eof])
  | noDeclaration : Derives .declarations []
  | declarations {u v} : Derives .declaration u → Derives .declarations v →
      Derives .declarations (u ++ v)
  | plainClass {w} : Derives .methods w →
      Derives .declaration
        (.keyword .classWord :: .identifier :: .leftBrace :: (w ++ [.rightBrace]))
  | subclass {w} : Derives .methods w →
      Derives .declaration (.keyword .classWord :: .identifier :: .less :: .identifier ::
        .leftBrace :: (w ++ [.rightBrace]))
  | function {w} : Derives .function w → Derives .declaration (.keyword .funWord :: w)
  | newVariable {w} : Derives .variable w → Derives .declaration w
  | statement {w} : Derives .statement w → Derives .declaration w
  | unset : Derives .variable [.keyword .varWord, .identifier, .semicolon]
  | set {w} : Derives .expression w →
      Derives .variable (.keyword .varWord :: .identifier :: .equal :: (w ++ [.semicolon]))
  | body {p w} : Derives .parameters p → Derives .declarations w →
      Derives .function (.identifier :: .leftParen ::
        (p ++ .rightParen :: .leftBrace :: (w ++ [.rightBrace])))
  | noMethod : Derives .methods []
  | methods {u v} : Derives .function u → Derives .methods v → Derives .methods (u ++ v)
  | noParameter : Derives .parameters []
  | parameters {w} : Derives .names w → Derives .parameters w
  | lastName : Derives .names [.identifier]
  | name {w} : Derives .names w → Derives .names (.identifier :: .comma :: w)
  | forLoop {i c s b} : Derives .initializer i → Derives .optional c → Derives .optional s →
      Derives .statement b →
      Derives .statement (.keyword .forWord :: .leftParen ::
        (i ++ (c ++ .semicolon :: (s ++ .rightParen :: b))))
  | ifThen {c a} : Derives .expression c → Derives .statement a →
      Derives .statement (.keyword .ifWord :: .leftParen :: (c ++ .rightParen :: a))
  | ifElse {c a b} : Derives .expression c → Derives .statement a → Derives .statement b →
      Derives .statement (.keyword .ifWord :: .leftParen ::
        (c ++ .rightParen :: (a ++ .keyword .elseWord :: b)))
  | whileLoop {c b} : Derives .expression c → Derives .statement b →
      Derives .statement (.keyword .whileWord :: .leftParen :: (c ++ .rightParen :: b))
  | print {w} : Derives .expression w →
      Derives .statement (.keyword .printWord :: (w ++ [.semicolon]))
  | assert {w} : Derives .expression w →
      Derives .statement (.keyword .assertWord :: (w ++ [.semicolon]))
  | ret {w} : Derives .optional w →
      Derives .statement (.keyword .returnWord :: (w ++ [.semicolon]))
  | block {w} : Derives .declarations w →
      Derives .statement (.leftBrace :: (w ++ [.rightBrace]))
  | expr {w} : Derives .expression w → Derives .statement (w ++ [.semicolon])
  | noInitializer : Derives .initializer [.semicolon]
  | initVariable {w} : Derives .variable w → Derives .initializer w
  | initExpr {w} : Derives .expression w → Derives .initializer (w ++ [.semicolon])
  | absent : Derives .optional []
  | present {w} : Derives .expression w → Derives .optional w
  | assign {w} : Derives .expression w → Derives .expression (.identifier :: .equal :: w)
  | setProperty {u w} : Derives .call u → Derives .expression w →
      Derives .expression (u ++ .dot :: .identifier :: .equal :: w)
  | loosest {w} : Derives (.level 1) w → Derives .expression w
  | binary {k u v} {op : Kind} : Derives (.level k) u → op ∈ operators k →
      Derives (.level (k + 1)) v → Derives (.level k) (u ++ op :: v)
  | tighter {k w} : Derives (.level (k + 1)) w → Derives (.level k) w
  | operand {w} : Derives .unary w → Derives (.level 7) w
  | signed {w} {op : Kind} : op = .bang ∨ op = .minus → Derives .unary w →
      Derives .unary (op :: w)
  | unsigned {w} : Derives .call w → Derives .unary w
  | call {u a} : Derives .call u → Derives .arguments a →
      Derives .call (u ++ .leftParen :: (a ++ [.rightParen]))
  | property {u} : Derives .call u → Derives .call (u ++ [.dot, .identifier])
  | primary {w} : Derives .primary w → Derives .call w
  | literal {t : Kind} : t ∈ literals → Derives .primary [t]
  | this : Derives .primary [.keyword .thisWord]
  | super : Derives .primary [.keyword .superWord, .dot, .identifier]
  | identifier : Derives .primary [.identifier]
  | group {w} : Derives .expression w → Derives .primary (.leftParen :: (w ++ [.rightParen]))
  | noArgument : Derives .arguments []
  | arguments {w} : Derives .expressions w → Derives .arguments w
  | lastExpression {w} : Derives .expression w → Derives .expressions w
  | expressions {u v} : Derives .expression u → Derives .expressions v →
      Derives .expressions (u ++ .comma :: v)

/-! ## Trees -/

/-- What a sequence of tokens can be read as. A statement that is `dangling` ends
with an `if` to which an `else` after it would belong. -/
inductive Phrase where
  | declarations (body : List Stmt)
  | declaration (s : Stmt)
  | variable (s : Stmt)
  | function (kind : FunctionKind) (start : Range) (f : Function)
  | methods (fs : List Function)
  | parameters (ps : List Name)
  | names (ps : List Name)
  | statement (dangling : Bool) (s : Stmt)
  | initializer (init : Option Stmt)
  | optional (e : Option Expr)
  | expression (e : Expr)
  | level (k : Nat) (e : Expr)
  | unary (e : Expr)
  | call (e : Expr)
  | primary (e : Expr)
  | arguments (es : List Expr)
  | expressions (es : List Expr)

/-- The name an identifier stands for. -/
def nameOf (t : Token) : Name := ⟨t.text, t.range⟩

/-- The value of a literal token. -/
def literalOf (t : Token) : Literal :=
  match t.kind with
  | .keyword .trueWord => .bool true
  | .keyword .falseWord => .bool false
  | .number => .number (Number.ofLiteral t.text)
  | .string => .string (unquoted t.text)
  | _ => .nil

/-- `Reads φ n ts m`: the tokens `ts` can be read as `φ`, and the node numbers from
`n + 1` to `m` are given out on the way. -/
inductive Reads : Phrase → Nat → List Token → Nat → Prop where
  | noDeclaration {n} : Reads (.declarations []) n [] n
  | declarations {n m k s body ts us} : Reads (.declaration s) n ts m →
      Reads (.declarations body) m us k → Reads (.declarations (s :: body)) n (ts ++ us) k
  | plainClass {n m fs ts} {kw name left right : Token} :
      kw.kind = .keyword .classWord → name.kind = .identifier → left.kind = .leftBrace →
      Reads (.methods fs) n ts m → right.kind = .rightBrace →
      Reads (.declaration (.classDecl (nameOf name) none fs (kw.range.join right.range))) n
        (kw :: name :: left :: (ts ++ [right])) m
  | subclass {n m fs ts} {kw name less parent left right : Token} :
      kw.kind = .keyword .classWord → name.kind = .identifier → less.kind = .less →
      parent.kind = .identifier → left.kind = .leftBrace →
      Reads (.methods fs) (n + 1) ts m → right.kind = .rightBrace →
      Reads (.declaration (.classDecl (nameOf name) (some ⟨n + 1, nameOf parent⟩) fs
        (kw.range.join right.range))) n
        (kw :: name :: less :: parent :: left :: (ts ++ [right])) m
  | function {n m f ts} {kw : Token} : kw.kind = .keyword .funWord →
      Reads (.function .function kw.range f) n ts m →
      Reads (.declaration (.function f)) n (kw :: ts) m
  | newVariable {n m s ts} : Reads (.variable s) n ts m → Reads (.declaration s) n ts m
  | statement {n m d s ts} : Reads (.statement d s) n ts m → Reads (.declaration s) n ts m
  | unset {n} {kw name semi : Token} : kw.kind = .keyword .varWord →
      name.kind = .identifier → semi.kind = .semicolon →
      Reads (.variable (.var (nameOf name) none (kw.range.join semi.range))) n
        [kw, name, semi] n
  | set {n m e ts} {kw name equals semi : Token} : kw.kind = .keyword .varWord →
      name.kind = .identifier → equals.kind = .equal → Reads (.expression e) n ts m →
      semi.kind = .semicolon →
      Reads (.variable (.var (nameOf name) (some e) (kw.range.join semi.range))) n
        (kw :: name :: equals :: (ts ++ [semi])) m
  | body {n m k ps ss ts us kind start} {name open' close left right : Token} :
      name.kind = .identifier → open'.kind = .leftParen → Reads (.parameters ps) n ts m →
      close.kind = .rightParen → left.kind = .leftBrace →
      Reads (.declarations ss) m us k → right.kind = .rightBrace →
      Reads (.function kind start (.mk (declaredKind kind (nameOf name)) (nameOf name) ps ss
        (start.join right.range))) n
        (name :: open' :: (ts ++ close :: left :: (us ++ [right]))) k
  | noMethod {n} : Reads (.methods []) n [] n
  | methods {n m k f fs ts us} {first : Token} : ts.head? = some first →
      Reads (.function .method first.range f) n ts m → Reads (.methods fs) m us k →
      Reads (.methods (f :: fs)) n (ts ++ us) k
  | noParameter {n} : Reads (.parameters []) n [] n
  | parameters {n m ps ts} : Reads (.names ps) n ts m → Reads (.parameters ps) n ts m
  | lastName {n} {name : Token} : name.kind = .identifier →
      Reads (.names [nameOf name]) n [name] n
  | name {n m ps ts} {name comma : Token} : name.kind = .identifier → comma.kind = .comma →
      Reads (.names ps) n ts m → Reads (.names (nameOf name :: ps)) n (name :: comma :: ts) m
  | forLoop {n₁ n₂ n₃ n₄ n₅ init test step d s is cs ss bs} {kw left semi right : Token} :
      kw.kind = .keyword .forWord → left.kind = .leftParen →
      Reads (.initializer init) n₁ is n₂ → Reads (.optional test) n₂ cs n₃ →
      semi.kind = .semicolon → Reads (.optional step) n₃ ss n₄ → right.kind = .rightParen →
      Reads (.statement d s) n₄ bs n₅ →
      Reads (.statement d (forLoop init (test.getD (.literal (.bool true) semi.range)) step s
        (kw.range.join s.span))) n₁
        (kw :: left :: (is ++ (cs ++ semi :: (ss ++ right :: bs)))) n₅
  | ifThen {n m k c d a cs as} {kw left right : Token} :
      kw.kind = .keyword .ifWord → left.kind = .leftParen → Reads (.expression c) n cs m →
      right.kind = .rightParen → Reads (.statement d a) m as k →
      Reads (.statement true (.cond c a none (kw.range.join a.span))) n
        (kw :: left :: (cs ++ right :: as)) k
  | ifElse {n m k l c d a b cs as bs} {kw left right els : Token} :
      kw.kind = .keyword .ifWord → left.kind = .leftParen → Reads (.expression c) n cs m →
      right.kind = .rightParen → Reads (.statement false a) m as k →
      els.kind = .keyword .elseWord → Reads (.statement d b) k bs l →
      Reads (.statement d (.cond c a (some b) (kw.range.join b.span))) n
        (kw :: left :: (cs ++ right :: (as ++ els :: bs))) l
  | whileLoop {n m k c d s cs bs} {kw left right : Token} :
      kw.kind = .keyword .whileWord → left.kind = .leftParen → Reads (.expression c) n cs m →
      right.kind = .rightParen → Reads (.statement d s) m bs k →
      Reads (.statement d (.loop c s (kw.range.join s.span))) n
        (kw :: left :: (cs ++ right :: bs)) k
  | print {n m e ts} {kw semi : Token} : kw.kind = .keyword .printWord →
      Reads (.expression e) n ts m → semi.kind = .semicolon →
      Reads (.statement false (.print e (kw.range.join semi.range))) n
        (kw :: (ts ++ [semi])) m
  | assertEqual {n m l r span ts} {kw semi : Token} : kw.kind = .keyword .assertWord →
      Reads (.expression (.binary .equal l r span)) n ts m → semi.kind = .semicolon →
      Reads (.statement false (.assertEqual l r (kw.range.join semi.range))) n
        (kw :: (ts ++ [semi])) m
  | assert {n m e ts} {kw semi : Token} : kw.kind = .keyword .assertWord →
      Reads (.expression e) n ts m → (∀ l r span, e ≠ .binary .equal l r span) →
      semi.kind = .semicolon →
      Reads (.statement false (.assert e (kw.range.join semi.range))) n
        (kw :: (ts ++ [semi])) m
  | ret {n m e ts} {kw semi : Token} : kw.kind = .keyword .returnWord →
      Reads (.optional e) n ts m → semi.kind = .semicolon →
      Reads (.statement false (.ret kw.range e (kw.range.join semi.range))) n
        (kw :: (ts ++ [semi])) m
  | block {n m ss ts} {left right : Token} : left.kind = .leftBrace →
      Reads (.declarations ss) n ts m → right.kind = .rightBrace →
      Reads (.statement false (.block ss (left.range.join right.range))) n
        (left :: (ts ++ [right])) m
  | expr {n m e ts} {semi : Token} : Reads (.expression e) n ts m →
      semi.kind = .semicolon →
      Reads (.statement false (.expr e (e.span.join semi.range))) n (ts ++ [semi]) m
  | noInitializer {n} {semi : Token} : semi.kind = .semicolon →
      Reads (.initializer none) n [semi] n
  | initVariable {n m s ts} : Reads (.variable s) n ts m →
      Reads (.initializer (some s)) n ts m
  | initExpr {n m e ts} {semi : Token} : Reads (.expression e) n ts m →
      semi.kind = .semicolon →
      Reads (.initializer (some (.expr e (e.span.join semi.range)))) n (ts ++ [semi]) m
  | absent {n} : Reads (.optional none) n [] n
  | present {n m e ts} : Reads (.expression e) n ts m → Reads (.optional (some e)) n ts m
  | assign {n m e ts} {name equals : Token} : name.kind = .identifier →
      equals.kind = .equal → Reads (.expression e) (n + 1) ts m →
      Reads (.expression (.assign (m + 1) (nameOf name) e (name.range.join e.span))) n
        (name :: equals :: ts) (m + 1)
  | setProperty {n m k o e ts us} {dot name equals : Token} : Reads (.call o) n ts m →
      dot.kind = .dot → name.kind = .identifier → equals.kind = .equal →
      Reads (.expression e) m us k →
      Reads (.expression (.set o (nameOf name) e
        ((o.span.join name.range).join e.span))) n (ts ++ dot :: name :: equals :: us) k
  | loosest {n m e ts} : Reads (.level 1 e) n ts m → Reads (.expression e) n ts m
  | binary {n m k j l r op ts us} {t : Token} : Reads (.level j l) n ts m →
      t.kind ∈ operators j → Operator.ofKind? t.kind = some op →
      Reads (.level (j + 1) r) m us k →
      Reads (.level j (op.node l r)) n (ts ++ t :: us) k
  | tighter {n m j e ts} : Reads (.level (j + 1) e) n ts m → Reads (.level j e) n ts m
  | operand {n m e ts} : Reads (.unary e) n ts m → Reads (.level 7 e) n ts m
  | signed {n m op e ts} {t : Token} : unaryOp? t.kind = some op → Reads (.unary e) n ts m →
      Reads (.unary (.unary op e (t.range.join e.span))) n (t :: ts) m
  | unsigned {n m e ts} : Reads (.call e) n ts m → Reads (.unary e) n ts m
  | call {n m k e es ts us} {left right : Token} : Reads (.call e) n ts m →
      left.kind = .leftParen → Reads (.arguments es) m us k → right.kind = .rightParen →
      Reads (.call (.call e es (e.span.join right.range))) n
        (ts ++ left :: (us ++ [right])) k
  | property {n m e ts} {dot name : Token} : Reads (.call e) n ts m → dot.kind = .dot →
      name.kind = .identifier →
      Reads (.call (.get e (nameOf name) (e.span.join name.range))) n (ts ++ [dot, name]) m
  | primary {n m e ts} : Reads (.primary e) n ts m → Reads (.call e) n ts m
  | literal {n} {t : Token} : t.kind ∈ literals → t.Legible →
      Reads (.primary (.literal (literalOf t) t.range)) n [t] n
  | this {n} {t : Token} : t.kind = .keyword .thisWord →
      Reads (.primary (.this (n + 1) t.range)) n [t] (n + 1)
  | super {n} {t dot name : Token} : t.kind = .keyword .superWord → dot.kind = .dot →
      name.kind = .identifier →
      Reads (.primary (.super (n + 1) (n + 2) t.range (nameOf name)
        (t.range.join name.range))) n [t, dot, name] (n + 2)
  | identifier {n} {t : Token} : t.kind = .identifier →
      Reads (.primary (.var (n + 1) (nameOf t))) n [t] (n + 1)
  | group {n m e ts} {left right : Token} : left.kind = .leftParen →
      Reads (.expression e) n ts m → right.kind = .rightParen →
      Reads (.primary (.group e (left.range.join right.range))) n (left :: (ts ++ [right])) m
  | noArgument {n} : Reads (.arguments []) n [] n
  | arguments {n m es ts} : Reads (.expressions es) n ts m → Reads (.arguments es) n ts m
  | lastExpression {n m e ts} : Reads (.expression e) n ts m →
      Reads (.expressions [e]) n ts m
  | expressions {n m k e es ts us} {comma : Token} : Reads (.expression e) n ts m →
      comma.kind = .comma → Reads (.expressions es) m us k →
      Reads (.expressions (e :: es)) n (ts ++ comma :: us) k

/-- A whole module: declarations, then the end marker. -/
def ReadsModule (kind : ModuleKind) (n : Nat) (tokens : List Token) (m : Module) (k : Nat) :
    Prop :=
  ∃ ts eof, tokens = ts ++ [eof] ∧ eof.kind = .eof ∧ Reads (.declarations m.body) n ts k ∧
    m.kind = kind ∧ m.span = (ts.headD eof).range.join eof.range

end LoxMachine.Grammar
