import Scriptlet.Proofs.Recognition

set_option autoImplicit false

/-! # The grammar

Which lexeme lists are expressions, statements and programs, and of which trees. The rules say
nothing about how to find a derivation: they are relations, and a chain of operators is
left-recursive.

Nesting is part of the grammar. The number `n` of a phrase counts the levels that it may use: a
block and an expression take one each and pass the others on, and so does the right operand of a
tight operator. The operands of a chain and the clauses of a `for` header take none. Each kind of
phrase has the kinds that stand inside it as parameters, and `Grammar.Factor`, `Grammar.Expression`
and `Grammar.Block` tie the knot over the levels. -/

namespace Scriptlet.Grammar

/-! ## Lists -/

/-- A name. -/
inductive Name : Phrase String
  | name (x : String) : Name [.name x] x

/-- One or more items with commas between them. -/
inductive CommaSeparated {α : Type} (Item : Phrase α) : Phrase (List α)
  | single {ls : List Lexeme} {a : α} : Item ls a → CommaSeparated Item ls [a]
  | more {ls ms : List Lexeme} {a : α} {as : List α} :
      Item ls a → CommaSeparated Item ms as →
        CommaSeparated Item (ls ++ .symbol .comma :: ms) (a :: as)

/-- Items that are written as `lexemes` says. -/
theorem CommaSeparated.intercalate {α β : Type} {Item : Phrase α} {lexemes : β → List Lexeme}
    {tree : β → α} {b : β} {bs : List β} (h : ∀ c ∈ b :: bs, Item (lexemes c) (tree c)) :
    CommaSeparated Item (List.intercalate [.symbol .comma] ((b :: bs).map lexemes))
      ((b :: bs).map tree) := by
  induction bs generalizing b with
  | nil =>
    rw [List.map_singleton, List.map_singleton, List.intercalate_singleton]
    exact .single (h b (by simp))
  | cons next bs ih =>
    have hmore := ih (b := next) fun c hc => h c (List.mem_cons_of_mem _ hc)
    rw [List.map_cons] at hmore
    rw [List.map_cons, List.map_cons, List.map_cons, List.intercalate_cons_cons, List.append_assoc]
    exact .more (h b (by simp)) hmore

/-- One or more indices, each between brackets. -/
inductive Indices (Expression : Phrase Expr) : Phrase (List Expr)
  | single {ls : List Lexeme} {e : Expr} :
      Expression ls e →
        Indices Expression (.symbol .bracketLeft :: ls ++ [.symbol .bracketRight]) [e]
  | more {ls ms : List Lexeme} {e : Expr} {es : List Expr} :
      Expression ls e → Indices Expression ms es →
        Indices Expression (.symbol .bracketLeft :: ls ++ .symbol .bracketRight :: ms) (e :: es)

/-! ## Expressions -/

/-- An expression without operators outside of brackets. -/
inductive Primary (Expression : Phrase Expr) : Phrase Expr
  | int (digits : String) :
      Primary Expression [.number digits] (.int (.ofNat (Decimal.value digits.toList)))
  | text (q : Quote) (s : String) : Primary Expression [.quoted q s] (.text s)
  | name (x : String) : Primary Expression [.name x] (.name x)
  | callEmpty (f : String) :
      Primary Expression [.name f, .symbol .parenLeft, .symbol .parenRight] (.call f [])
  | call (f : String) {ls : List Lexeme} {arguments : List Expr} :
      CommaSeparated Expression ls arguments →
        Primary Expression (.name f :: .symbol .parenLeft :: ls ++ [.symbol .parenRight])
          (.call f arguments)
  | index (x : String) {ls : List Lexeme} {indices : List Expr} :
      Indices Expression ls indices → Primary Expression (.name x :: ls) (.index x indices)
  | parenthesized {ls : List Lexeme} {e : Expr} :
      Expression ls e →
        Primary Expression (.symbol .parenLeft :: ls ++ [.symbol .parenRight]) e
  | arrayEmpty : Primary Expression [.symbol .bracketLeft, .symbol .bracketRight] (.array [])
  | array {ls : List Lexeme} {elements : List Expr} :
      CommaSeparated Expression ls elements →
        Primary Expression (.symbol .bracketLeft :: ls ++ [.symbol .bracketRight])
          (.array elements)
  | eval {ls : List Lexeme} {e : Expr} :
      Expression ls e →
        Primary Expression (.keyword .eval :: .symbol .parenLeft :: ls ++ [.symbol .parenRight])
          (.eval e)
  | id {ls : List Lexeme} {e : Expr} :
      Expression ls e →
        Primary Expression (.keyword .id :: .symbol .parenLeft :: ls ++ [.symbol .parenRight])
          (.id e)

/-- A primary, or a primary, a tight operator and a right operand: grouped to the right. -/
inductive FactorOf (Expression Right : Phrase Expr) : Phrase Expr
  | primary {ls : List Lexeme} {e : Expr} :
      Primary Expression ls e → FactorOf Expression Right ls e
  | tight {ls ms : List Lexeme} {op : BinaryOp} {left right : Expr} :
      Primary Expression ls left → op.level = .tight → Right ms right →
        FactorOf Expression Right (ls ++ .symbol op.symbol :: ms) (.binary op left right)

/-- Operands with operators of one level between them, grouped to the left. -/
inductive Chain (level : BinaryOp.Level) (Operand : Phrase Expr) : Phrase Expr
  | operand {ls : List Lexeme} {e : Expr} : Operand ls e → Chain level Operand ls e
  | more {ls ms : List Lexeme} {op : BinaryOp} {left right : Expr} :
      Chain level Operand ls left → op.level = level → Operand ms right →
        Chain level Operand (ls ++ .symbol op.symbol :: ms) (.binary op left right)

/-- A factor with `n` more levels inside. -/
def Factor : (n : Nat) → Phrase Expr
  | 0 => FactorOf (fun _ _ => False) (fun _ _ => False)
  | n + 1 => FactorOf (Chain .loose (Chain .middle (Factor n))) (Factor n)

/-- An expression with `n` levels, its own included. -/
def Expression : (n : Nat) → Phrase Expr
  | 0 => fun _ _ => False
  | n + 1 => Chain .loose (Chain .middle (Factor n))

/-! ## Statements -/

/-- A statement. A name that a statement starts with may stand between parentheses, and so may an
    indexed variable and a call: what counts is the expression, not how it is written. -/
inductive Statement (Body : Phrase Block) (Expression : Phrase Expr) : Phrase Stmt
  | exit : Statement Body Expression [.keyword .exit] .exit
  | print {ls : List Lexeme} {arguments : List Expr} :
      CommaSeparated Expression ls arguments →
        Statement Body Expression
          (.keyword .print :: .symbol .parenLeft :: ls ++ [.symbol .parenRight]) (.print arguments)
  | branch {cs ts : List Lexeme} {condition : Expr} {thenBlock : Block} :
      Expression cs condition → Body ts thenBlock →
        Statement Body Expression
          (.keyword .if_ :: cs ++ .keyword .then_ :: ts ++ [.keyword .endif])
          (.branch condition thenBlock [])
  | branchElse {cs ts es : List Lexeme} {condition : Expr} {thenBlock elseBlock : Block} :
      Expression cs condition → Body ts thenBlock → Body es elseBlock →
        Statement Body Expression
          (.keyword .if_ :: cs ++ .keyword .then_ :: ts ++ .keyword .else_ :: es ++
            [.keyword .endif])
          (.branch condition thenBlock elseBlock)
  | whileLoop {cs bs : List Lexeme} {condition : Expr} {body : Block} :
      Expression cs condition → Body bs body →
        Statement Body Expression
          (.keyword .while_ :: cs ++ .keyword .do_ :: bs ++ [.keyword .endwhile])
          (.whileLoop condition body)
  | forLoop {is cs ss bs : List Lexeme} {init step : Stmt} {condition : Expr} {body : Block} :
      Statement Body Expression is init → Expression cs condition →
        Statement Body Expression ss step → Body bs body →
        Statement Body Expression
          (.keyword .for_ :: is ++ .symbol .semicolon :: cs ++ .symbol .semicolon :: ss ++
            .keyword .do_ :: bs ++ [.keyword .endfor])
          (.forLoop init condition step body)
  | defineEmpty (f : String) {bs : List Lexeme} {body : Block} :
      Body bs body →
        Statement Body Expression
          (.keyword .function :: .name f :: .symbol .parenLeft :: .symbol .parenRight :: bs ++
            [.keyword .endfunction])
          (.define f [] body)
  | define (f : String) {ps bs : List Lexeme} {parameters : List String} {body : Block} :
      CommaSeparated Name ps parameters → Body bs body →
        Statement Body Expression
          (.keyword .function :: .name f :: .symbol .parenLeft :: ps ++
            .symbol .parenRight :: bs ++ [.keyword .endfunction])
          (.define f parameters body)
  | return_ {ls : List Lexeme} {value : Expr} :
      Expression ls value → Statement Body Expression (.keyword .return_ :: ls) (.return_ value)
  | declareGlobal (x : String) {ls : List Lexeme} {value : Expr} :
      Expression ls value →
        Statement Body Expression (.keyword .global :: .name x :: .symbol .assign :: ls)
          (.declareGlobal x value)
  | promote (x : String) : Statement Body Expression [.keyword .global, .name x] (.promote x)
  | append {ts vs : List Lexeme} {target value : Expr} :
      Expression ts target → Expression vs value →
        Statement Body Expression
          (.keyword .append :: .symbol .parenLeft :: ts ++ .symbol .comma :: vs ++
            [.symbol .parenRight])
          (.append target value)
  | remove {ts vs : List Lexeme} {target value : Expr} :
      Expression ts target → Expression vs value →
        Statement Body Expression
          (.keyword .remove :: .symbol .parenLeft :: ts ++ .symbol .comma :: vs ++
            [.symbol .parenRight])
          (.remove target value)
  | assign {xs ls : List Lexeme} {x : String} {value : Expr} :
      Expression xs (.name x) → Expression ls value →
        Statement Body Expression (xs ++ .symbol .assign :: ls) (.assign x value)
  | increment {xs : List Lexeme} {x : String} (direction : Direction) :
      Expression xs (.name x) →
        Statement Body Expression (xs ++ [.symbol direction.symbol]) (.increment x direction)
  | compound {xs ls : List Lexeme} {x : String} {s : Symbol} {op : Arithmetic} {value : Expr} :
      Expression xs (.name x) → Arithmetic.ofCompound? s = some op → Expression ls value →
        Statement Body Expression (xs ++ .symbol s :: ls) (.compound x op value)
  | assignAll {xs ns ls : List Lexeme} {x : String} {names : List String} {values : List Expr} :
      Expression xs (.name x) → CommaSeparated Name ns names →
        CommaSeparated Expression ls values →
        Statement Body Expression (xs ++ .symbol .comma :: ns ++ .symbol .assign :: ls)
          (.assignAll (x :: names) values)
  | assignIndex {xs ls : List Lexeme} {x : String} {indices : List Expr} {value : Expr} :
      Expression xs (.index x indices) → Expression ls value →
        Statement Body Expression (xs ++ .symbol .assign :: ls) (.assignIndex x indices value)
  | call {ls : List Lexeme} {f : String} {arguments : List Expr} :
      Expression ls (.call f arguments) → Statement Body Expression ls (.call f arguments)
  | expression {ls : List Lexeme} {e : Expr} :
      Expression ls e → (∀ f arguments, e ≠ .call f arguments) →
        Statement Body Expression ls (.expression e)

/-- One or more statements, each followed by a semicolon. -/
inductive Statements (Statement : Phrase Stmt) : Phrase Block
  | single {ls : List Lexeme} {stmt : Stmt} :
      Statement ls stmt → Statements Statement (ls ++ [.symbol .semicolon]) [stmt]
  | more {ls ms : List Lexeme} {stmt : Stmt} {rest : Block} :
      Statement ls stmt → Statements Statement ms rest →
        Statements Statement (ls ++ .symbol .semicolon :: ms) (stmt :: rest)

/-- A block with `n` levels, its own included. -/
def Block : (n : Nat) → Phrase Block
  | 0 => fun _ _ => False
  | n + 1 => Statements (Statement (Block n) (Expression n))

/-- The lexemes of a source text; faults are left out. -/
def lexemes (source : String) : List Lexeme :=
  (tokensOf (scanText source)).map Token.lexeme

end Scriptlet.Grammar
