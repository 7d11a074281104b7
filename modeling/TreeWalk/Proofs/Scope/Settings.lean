import TreeWalk.Proofs.Scope.Spots

/-!
# Settings of the nodes of a program

What the text of a program says about a place in it: the names that each scope around
the place has declared before it, and the function and class that it is in. A setting is
found by going down the tree and needs no walk of the scope rules.

## Implementation notes

An occurrence is a node together with its setting. A node may occur more than once in a
tree, so occurrences are found by their paths: the numbers of the parts to go down to.
Statements in a row are a node of their own, and so are the statements behind the first.
-/

namespace TreeWalk

/-- The parts of a node, in the order in which the scope rules are applied to them. -/
def Node.parts : Node → List Node
  | .expr (.assign _ value) => [.expr value]
  | .expr (.grouping inner) => [.expr inner]
  | .expr (.unary _ operand) => [.expr operand]
  | .expr (.binary left _ right) | .expr (.logical left _ right) => [.expr left, .expr right]
  | .expr (.conditional condition consequent alternative) =>
    [.expr condition, .expr consequent, .expr alternative]
  | .expr (.comma items) => [.exprs items]
  | .expr (.call callee _ arguments) => [.expr callee, .exprs arguments]
  | .expr (.get object _) => [.expr object]
  | .expr (.set object _ value) => [.expr value, .expr object]
  | .expr (.lambda _ _ body) => [.stmts body]
  | .exprs (e :: rest) => [.expr e, .exprs rest]
  | .stmt (.expression value) | .stmt (.print value) => [.expr value]
  | .stmt (.varDecl _ (some initial)) => [.expr initial]
  | .stmt (.block body) => [.stmts body]
  | .stmt (.branch condition consequent none) => [.expr condition, .stmt consequent]
  | .stmt (.branch condition consequent (some alternative)) =>
    [.expr condition, .stmt consequent, .stmt alternative]
  | .stmt (.loop condition body) => [.expr condition, .stmt body]
  | .stmt (.functionDecl (.mk _ _ body)) => [.stmts body]
  | .stmt (.classDecl _ none members) => [.methods members]
  | .stmt (.classDecl _ (some parent) members) => [.expr (.variable parent), .methods members]
  | .stmt (.returns _ (some value)) => [.expr value]
  | .stmts (s :: rest) => [.stmt s, .stmts rest]
  | .methods (.mk _ _ body :: rest) => [.stmts body, .methods rest]
  | _ => []

/-- What the text around a place says: the names that each scope around it, innermost
first, has declared before it, the function and class around it, and the local variable
of the innermost scope whose initial value it belongs to. -/
structure Setting where
  scopes : List (List String)
  functionContext : FunctionContext
  classContext : ClassContext
  initializing : Option String

namespace Setting

/-- Outside of everything. -/
def top : Setting := ⟨[], .outside, .outside, none⟩

/-- Behind the declaration of a name. Outside of all scopes names are global. -/
def declare (Γ : Setting) (name : Token) : Setting :=
  { Γ with scopes := Γ.scopes.modifyHead (name.lexeme :: ·) }

/-- At the beginning of a scope. -/
def enter (Γ : Setting) (names : List String) : Setting :=
  { Γ with scopes := names :: Γ.scopes, initializing := none }

/-- At the beginning of the body of a function: the parameters have a scope around it. -/
def routine (Γ : Setting) (context : FunctionContext) (params : List Token) : Setting :=
  (params.foldl declare ({ Γ with functionContext := context }.enter [])).enter []

/-- In the initial value of a variable. -/
def initial (Γ : Setting) (name : Token) : Setting :=
  { Γ.declare name with initializing := Γ.scopes.head?.map fun _ => name.lexeme }

/-- Behind the name of a class. -/
def behindName (Γ : Setting) (name : Token) (hasSuperclass : Bool) : Setting :=
  { Γ.declare name with classContext := if hasSuperclass then .derived else .base }

/-- Around the methods of a class. -/
def methods (Γ : Setting) (hasSuperclass : Bool) : Setting :=
  (if hasSuperclass then Γ.enter ["super"] else Γ).enter ["this"]

/-- Behind a statement. -/
def after (Γ : Setting) (s : Stmt) : Setting := s.declared?.elim Γ Γ.declare

/-- The setting of a part of a node from that of the node. -/
def inside (Γ : Setting) : Node → Node → Setting
  | .expr (.lambda _ params _), _ => Γ.routine .function params
  | .stmt (.varDecl name _), _ => Γ.initial name
  | .stmt (.block _), _ => Γ.enter []
  | .stmt (.functionDecl (.mk name params _)), _ => (Γ.declare name).routine .function params
  | .stmt (.classDecl name parent _), .methods _ =>
    (Γ.behindName name parent.isSome).methods parent.isSome
  | .stmt (.classDecl name parent _), _ => Γ.behindName name parent.isSome
  | .stmts (s :: _), .stmts _ => Γ.after s
  | .methods (.mk name params _ :: _), .stmts _ => Γ.routine (methodContext name) params
  | _, _ => Γ

/-- The number of scopes between a place and the nearest one around it that has declared
a name before. -/
def distance? (Γ : Setting) (name : String) : Option Nat :=
  Γ.scopes.findIdx? fun names => decide (name ∈ names)

end Setting

/-- A node where it stands. -/
structure Occurrence where
  node : Node
  setting : Setting

namespace Occurrence

/-- The parts of a node where they stand. -/
def parts (o : Occurrence) : List Occurrence :=
  o.node.parts.map fun part => ⟨part, o.setting.inside o.node part⟩

/-- What stands at the end of a path down the tree. -/
def at? : List Nat → Occurrence → Option Occurrence
  | [], o => some o
  | i :: path, o => o.parts[i]?.bind (at? path)

/-- What stands inside of a node, itself included. -/
def Contains (o inner : Occurrence) : Prop := ∃ path, o.at? path = some inner

/-- A program. -/
def ofProgram (program : List Stmt) : Occurrence := ⟨.stmts program, .top⟩

variable {o inner : Occurrence}

theorem Contains.refl : o.Contains o := ⟨[], rfl⟩

/-- What stands inside of a node is the node or stands inside of a part. -/
theorem contains_iff : o.Contains inner ↔ inner = o ∨ ∃ part ∈ o.parts, part.Contains inner := by
  constructor
  · rintro ⟨path, found⟩
    cases path with
    | nil => exact .inl (Option.some.inj found).symm
    | cons i path =>
        obtain ⟨part, isPart, found⟩ := Option.bind_eq_some_iff.1 found
        exact .inr ⟨part, List.mem_of_getElem? isPart, path, found⟩
  · rintro (rfl | ⟨part, among, path, found⟩)
    · exact .refl
    · obtain ⟨i, isPart⟩ := List.mem_iff_getElem?.1 among
      exact ⟨i :: path, by simp [at?, isPart, found]⟩

theorem Contains.part {part : Occurrence} (among : part ∈ o.parts) (h : part.Contains inner) :
    o.Contains inner :=
  contains_iff.2 (.inr ⟨part, among, h⟩)

end Occurrence

/-- How a node uses a name, if it does, and the name with its distance. -/
def Node.reference? : Node → Option (Use × Reference)
  | .expr (.variable reference) => some (.variable, reference)
  | .expr (.assign reference _) => some (.assign, reference)
  | .expr (.this reference) => some (.this, reference)
  | .expr (.super reference _) => some (.super, reference)
  | _ => none

/-- What a node is from how it uses a name. -/
theorem Node.of_reference? {node : Node} {use : Use} {reference : Reference}
    (h : node.reference? = some (use, reference)) :
    match use with
    | .variable => node = .expr (.variable reference)
    | .assign => ∃ value, node = .expr (.assign reference value)
    | .this => node = .expr (.this reference)
    | .super => ∃ method, node = .expr (.super reference method) := by
  unfold reference? at h
  split at h <;> cases h <;> simp

/-- The use of a name at a node, if the node has a distance for it. -/
def Node.located? (node : Node) : Option Located :=
  node.reference?.bind fun (use, reference) =>
    reference.distance.map fun distance => ⟨use, reference.name, distance⟩

/-- The parts of a node are smaller than the node. -/
theorem Node.sizeOf_part (node : Node) : ∀ part ∈ node.parts, sizeOf part < sizeOf node := by
  unfold parts
  split <;> simp <;> omega

/-- All uses with a distance in a node, in the order in which the scope rules are applied. -/
def Node.located (node : Node) : List Located :=
  node.parts.attach.flatMap (fun part => located part.1) ++ node.located?.toList
termination_by sizeOf node
decreasing_by exact node.sizeOf_part part.1 part.2

theorem Node.located_eq (node : Node) :
    node.located = node.parts.flatMap located ++ node.located?.toList := by
  rw [located]
  simp

/-- The scope with a number of scopes around it is the nearest one to declare a name. -/
def Setting.Finds (Γ : Setting) (depth : Nat) (name : String) : Prop :=
  ∃ distance, Γ.distance? name = some distance ∧ distance + depth + 1 = Γ.scopes.length

namespace Occurrence

/-- A variable that is bound in the scope with a number of scopes around it. -/
def ReadsItself (o : Occurrence) (depth : Nat) (name : String) : Prop :=
  ∃ reference, o.node = .expr (.variable reference) ∧ reference.name.lexeme = name ∧
    o.setting.Finds depth name

/-- Inside of a node there is a variable that is bound in the scope with a number of
scopes around it. -/
def Reads (o : Occurrence) (depth : Nat) (name : String) : Prop :=
  ∃ inner, o.Contains inner ∧ inner.ReadsItself depth name

theorem reads_iff {o : Occurrence} {depth : Nat} {name : String} :
    o.Reads depth name ↔ o.ReadsItself depth name ∨ ∃ part ∈ o.parts, part.Reads depth name := by
  unfold Reads
  constructor
  · rintro ⟨inner, inside, reads⟩
    obtain rfl | ⟨part, among, inside⟩ := contains_iff.1 inside
    · exact .inl reads
    · exact .inr ⟨part, among, inner, inside, reads⟩
  · rintro (reads | ⟨part, among, inner, inside, reads⟩)
    · exact ⟨o, .refl, reads⟩
    · exact ⟨inner, .part among inside, reads⟩

end Occurrence

end TreeWalk
