import TreeWalk.Proofs.Scope.Settings

/-!
# Violations of the scope rules

What it takes for a node to violate a scope rule where it stands, in terms of the text
alone. A violation comes with the token that is to blame.
-/

namespace TreeWalk

/-- The names that statements in a row declare, in the order of the text. -/
def Stmt.declarations (body : List Stmt) : List Token := body.filterMap Stmt.declared?

/-- The parameters and the statements of the function or block that a node is. -/
def Node.opened? : Node → Option (List Token × List Stmt)
  | .expr (.lambda _ params body) => some (params, body)
  | .stmt (.block body) => some ([], body)
  | .stmt (.functionDecl (.mk _ params body)) => some (params, body)
  | .methods (.mk _ params body :: _) => some (params, body)
  | _ => none

/-- A name with the text of another one before it. -/
def Repeats (names : List Token) (name : Token) : Prop :=
  ∃ before later, names = before ++ name :: later ∧ ∃ other ∈ before, other.lexeme = name.lexeme

/-- A node violates a scope rule where it stands. -/
inductive Violates : Occurrence → ScopeError → Prop
  /-- A return outside of functions. -/
  | returnAtTopLevel {Γ keyword value} : Γ.functionContext = .outside →
      Violates ⟨.stmt (.returns keyword value), Γ⟩ ⟨.returnAtTopLevel, keyword⟩
  /-- A return with a value in an initializer. -/
  | valueFromInitializer {Γ keyword value} : Γ.functionContext = .initializer →
      Violates ⟨.stmt (.returns keyword (some value)), Γ⟩ ⟨.valueFromInitializer, keyword⟩
  | thisOutsideClass {Γ reference} : Γ.classContext = .outside →
      Violates ⟨.expr (.this reference), Γ⟩ ⟨.thisOutsideClass, reference.name⟩
  | superOutsideClass {Γ reference method} : Γ.classContext = .outside →
      Violates ⟨.expr (.super reference method), Γ⟩ ⟨.superOutsideClass, reference.name⟩
  | superWithoutSuperclass {Γ reference method} : Γ.classContext = .base →
      Violates ⟨.expr (.super reference method), Γ⟩ ⟨.superWithoutSuperclass, reference.name⟩
  | inheritsFromItself {Γ name parent methods} : name.lexeme = parent.name.lexeme →
      Violates ⟨.stmt (.classDecl name (some parent) methods), Γ⟩ ⟨.inheritsFromItself, parent.name⟩
  /-- Two parameters of a function with the same name. -/
  | repeatedParameter {o params body name} : o.node.opened? = some (params, body) →
      Repeats params name → Violates o ⟨.redeclared, name⟩
  /-- A declaration of a name that was declared before in the same scope. -/
  | redeclared {Γ s name names outer} : s.declared? = some name → Γ.scopes = names :: outer →
      name.lexeme ∈ names → Violates ⟨.stmt s, Γ⟩ ⟨.redeclared, name⟩
  /-- A variable that is read in its initial value, in the scope that declares it. -/
  | readInOwnInitializer {Γ reference} : Γ.initializing = some reference.name.lexeme →
      Violates ⟨.expr (.variable reference), Γ⟩ ⟨.readInOwnInitializer, reference.name⟩
  /-- A name that is declared inside of a function and bound to no variable. -/
  | neverUsed {o Γ params body name} : o.node.opened? = some (params, body) →
      Γ = o.setting.inside o.node (.stmts body) → Γ.functionContext ≠ .outside →
      name ∈ Stmt.declarations body →
      ¬Occurrence.Reads ⟨.stmts body, Γ⟩ Γ.scopes.tail.length name.lexeme →
      Violates o ⟨.neverUsed, name⟩
  /-- A name that is declared in the body of a function and is one of its parameters. -/
  | conflictsWithParameter {o params body name param} : o.node.opened? = some (params, body) →
      name ∈ Stmt.declarations body → param ∈ params → param.lexeme = name.lexeme →
      Violates o ⟨.conflictsWithParameter, name⟩

end TreeWalk
