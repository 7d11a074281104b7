import TreeWalk.Proofs.Scope.Agreement

/-!
# Walking part by part

The walk over a node is a walk over its parts, each where it stands, and then over the
name that the node uses. So it turns every node of a program into one that stands in the
same setting, and what it leaves behind is told by the text.

## Implementation notes

`Stages` keeps for every part how what the walk leaves behind inside of the scopes of the
part shows outside of them. That is all that differs between the kinds of nodes, so the
facts about whole walks follow by one induction on the size of a node.
-/

namespace TreeWalk

open Resolve Surroundings

variable {place mid place' : Surroundings} {Γ : Setting}

theorem Resolve.readVariable_locate {reference reference' : Reference}
    (h : (readVariable reference).Gives place reference' place') :
    (locate .variable reference).Gives place reference' place' := by
  simp only [readVariable, bind_gives, exists_unit] at h
  obtain ⟨mid, check, found⟩ := h
  obtain ⟨rfl, -⟩ := checkReady_gives check
  exact found

/-- The walk turns one node into another where it stands. -/
structure Resolved (o o' : Occurrence) : Prop where
  setting : o'.setting = o.setting
  made : ∃ place place', o.At place ∧ Resolves ⟨o.node, place⟩ o'.node place'

theorem Occurrence.At.resolved {node node' : Node} (h : At ⟨node, Γ⟩ place)
    (made : Resolves ⟨node, place⟩ node' place') : Resolved ⟨node, Γ⟩ ⟨node', Γ⟩ :=
  ⟨rfl, place, place', h, made⟩

/-- A walk over parts where they stand, one after the other. What it leaves behind inside
of the scopes that are entered for a part it leaves behind outside of them. -/
inductive Stages : List Occurrence → List Occurrence → Surroundings → Surroundings → Prop
  | nil {place : Surroundings} : Stages [] [] place place
  | cons {node node' : Node} {Γ : Setting} {parts parts' : List Occurrence}
      {start stop place mid place' : Surroundings} :
      Occurrence.At ⟨node, Γ⟩ start → Resolves ⟨node, start⟩ node' stop →
      (∀ {uses reads}, Marks uses reads start stop → Marks uses reads place mid) →
      Stages parts parts' mid place' →
      Stages (⟨node, Γ⟩ :: parts) (⟨node', Γ⟩ :: parts') place place'

namespace Stages

variable {parts parts' : List Occurrence}

/-- A part for which no scope is entered. -/
theorem next {node node' : Node} (at' : Occurrence.At ⟨node, Γ⟩ place)
    (made : Resolves ⟨node, place⟩ node' mid) (others : Stages parts parts' mid place') :
    Stages (⟨node, Γ⟩ :: parts) (⟨node', Γ⟩ :: parts') place place' :=
  .cons at' made id others

theorem last {node node' : Node} (at' : Occurrence.At ⟨node, Γ⟩ place)
    (made : Resolves ⟨node, place⟩ node' place') :
    Stages [⟨node, Γ⟩] [⟨node', Γ⟩] place place' :=
  .next at' made .nil

theorem resolved (h : Stages parts parts' place place') : List.Forall₂ Resolved parts parts' := by
  induction h with
  | nil => exact .nil
  | cons at' made _ _ ih => exact .cons (at'.resolved made) ih

end Stages

/-- A use of a name gets the distance that the text tells. -/
def Setting.Annotates (Γ : Setting) (found found' : Use × Reference) : Prop :=
  found' = (found.1, ⟨found.2.name, Γ.distance? found.2.name.lexeme⟩)

/-- A walk over a node: over its parts and, behind them, over the name that it uses. -/
structure Staged (o o' : Occurrence) (place place' : Surroundings) : Prop where
  reference : Option.Rel o.setting.Annotates o.node.reference? o'.node.reference?
  stages : ∃ mid, Stages o.parts o'.parts place mid ∧
    Marks o'.node.located?.toList o.ReadsItself mid place'

namespace Staged

variable {o o' : Occurrence}

/-- A walk over a node that uses no name. -/
theorem plain (stages : Stages o.parts o'.parts place mid) (unmarked : Unmarked mid place')
    (isPlain : o.node.reference? = none) (isPlain' : o'.node.reference? = none) :
    Staged o o' place place' := by
  refine ⟨by rw [isPlain, isPlain']; exact .none, mid, stages,
    unmarked.congr ?_ fun depth _ name _ => ?_⟩
  · rw [Node.located?, isPlain']
    rfl
  · rw [false_iff]
    rintro ⟨reference, isVariable, -⟩
    rw [isVariable] at isPlain
    cases isPlain

/-- A walk over a node that uses a name. -/
theorem locate {use : Use} {reference reference' : Reference}
    (stages : Stages o.parts o'.parts place mid) (agrees : o.setting.Agrees mid)
    (found : (locate use reference).Gives mid reference' place')
    (isUse : o.node.reference? = some (use, reference))
    (isUse' : o'.node.reference? = some (use, reference'))
    (isWord : use = .variable ∨ use = .assign ∨ ¬reference.name.IsPlain) :
    Staged o o' place place' := by
  have annotated : o.setting.Annotates (use, reference) (use, reference') := by
    rw [Setting.Annotates, (locate_alike found).2, agrees.distance?]
  refine ⟨by rw [isUse, isUse']; exact .some annotated, mid, stages,
    (Marks.locate found).congr ?_ fun depth _ name isPlain => ?_⟩
  · rw [Node.located?, isUse']
    rfl
  · rw [agrees.finds]
    constructor
    · rintro ⟨reads, rfl, finds⟩
      obtain rfl | rfl | isWord := isWord
      · exact ⟨reference, Node.of_reference? isUse, rfl, finds⟩
      · exact absurd rfl reads
      · exact absurd isPlain isWord
    · rintro ⟨other, isVariable, rfl, finds⟩
      rw [isVariable] at isUse
      obtain ⟨rfl, rfl⟩ := Prod.mk.inj (Option.some.inj isUse)
      exact ⟨nofun, rfl, finds⟩

end Staged

/-- The walk over an expression where it stands, part by part. -/
theorem Occurrence.At.staged_expr {e e' : Expr} (h : At ⟨.expr e, Γ⟩ place)
    (gives : e.resolve.Gives place e' place') :
    Staged ⟨.expr e, Γ⟩ ⟨.expr e', Γ⟩ place place' := by
  have parts := Expr.resolve_gives.1 gives
  cases e with
  | literal =>
      obtain ⟨rfl, rfl⟩ := parts
      exact .plain .nil .refl rfl rfl
  | «variable» =>
      obtain ⟨_, read, rfl⟩ := parts
      exact .locate .nil h.agrees (readVariable_locate read) rfl rfl (.inl rfl)
  | assign =>
      obtain ⟨_, _, _, walk, found, rfl⟩ := parts
      have value := h.walks .assignValue
      have alike := Expr.resolve_alike (h.sane id).layered.2.1 walk
      exact .locate (.last value (.expr walk)) (h.agrees.alike alike) found rfl rfl
        (.inr (.inl rfl))
  | this reference =>
      obtain ⟨_, -, found, rfl⟩ := parts
      have word := ((h.sane id).proper reference.name (by simp [Node.words, Expr.words])).this
        (h.sane id).layered.1
      exact .locate .nil h.agrees found rfl rfl (.inr (.inr fun plain => plain.1 word))
  | super reference =>
      obtain ⟨_, -, found, rfl⟩ := parts
      have word := ((h.sane id).proper reference.name (by simp [Node.words, Expr.words])).super
        (h.sane id).layered.1.1
      exact .locate .nil h.agrees found rfl rfl (.inr (.inr fun plain => plain.2 word))
  | grouping =>
      obtain ⟨_, walk, rfl⟩ := parts
      exact .plain (.last (h.walks .grouping) (.expr walk)) .refl rfl rfl
  | unary =>
      obtain ⟨_, walk, rfl⟩ := parts
      exact .plain (.last (h.walks .unary) (.expr walk)) .refl rfl rfl
  | binary =>
      obtain ⟨_, _, _, first, second, rfl⟩ := parts
      have right := Stages.last (h.walks (.binaryRight first)) (.expr second)
      exact .plain (.next (h.walks .binaryLeft) (.expr first) right) .refl rfl rfl
  | logical =>
      obtain ⟨_, _, _, first, second, rfl⟩ := parts
      have right := Stages.last (h.walks (.logicalRight first)) (.expr second)
      exact .plain (.next (h.walks .logicalLeft) (.expr first) right) .refl rfl rfl
  | conditional =>
      obtain ⟨_, _, _, _, _, first, second, third, rfl⟩ := parts
      have alternative := Stages.last (h.walks (.alternative first second)) (.expr third)
      have branches := Stages.next (h.walks (.consequent first)) (.expr second) alternative
      exact .plain (.next (h.walks .condition) (.expr first) branches) .refl rfl rfl
  | comma =>
      obtain ⟨_, walk, rfl⟩ := parts
      exact .plain (.last (h.walks .items) (.exprs walk)) .refl rfl rfl
  | call =>
      obtain ⟨_, _, _, first, second, rfl⟩ := parts
      have arguments := Stages.last (h.walks (.arguments first)) (.exprs second)
      exact .plain (.next (h.walks .callee) (.expr first) arguments) .refl rfl rfl
  | get =>
      obtain ⟨_, walk, rfl⟩ := parts
      exact .plain (.last (h.walks .getObject) (.expr walk)) .refl rfl rfl
  | set =>
      obtain ⟨_, _, _, first, second, rfl⟩ := parts
      have object := Stages.last (h.walks (.setObject first)) (.expr second)
      exact .plain (.next (h.walks .setValue) (.expr first) object) .refl rfl rfl
  | lambda =>
      obtain ⟨_, walk, rfl⟩ := parts
      obtain ⟨_, _, bound, body, -, rfl⟩ := routine_gives.1 walk
      exact .plain (.cons (h.walks (.lambdaBody bound)) (.stmts body)
        (fun marks => marks.routine bound) .nil) .refl rfl rfl

/-- The walk over a statement where it stands, part by part. -/
theorem Occurrence.At.staged_stmt {s s' : Stmt} (h : At ⟨.stmt s, Γ⟩ place)
    (gives : s.resolve.Gives place s' place') :
    Staged ⟨.stmt s, Γ⟩ ⟨.stmt s', Γ⟩ place place' := by
  have parts := Stmt.resolve_gives.1 gives
  rcases s with _ | _ | ⟨_, _ | _⟩ | _ | ⟨_, _, _ | _⟩ | _ | ⟨⟨_, _, _⟩⟩ | ⟨_, _ | _, _⟩ |
    ⟨_, _ | _⟩
  case expression =>
    obtain ⟨_, walk, rfl⟩ := parts
    exact .plain (.last (h.walks .value) (.expr walk)) .refl rfl rfl
  case print =>
    obtain ⟨_, walk, rfl⟩ := parts
    exact .plain (.last (h.walks .printed) (.expr walk)) .refl rfl rfl
  case varDecl.none =>
    obtain ⟨declares, rfl⟩ := parts
    exact .plain .nil (.declareReady declares) rfl rfl
  case varDecl.some =>
    obtain ⟨_, _, _, declares, walk, settles, rfl⟩ := parts
    exact .plain (.cons (h.walks (.initial declares)) (.expr walk)
      (fun marks => marks.after (.declare declares)) .nil) (.settle settles) rfl rfl
  case block =>
    obtain ⟨_, _, walk, -, rfl, rfl⟩ := parts
    exact .plain (.cons (h.walks .block) (.stmts walk)
      (fun marks => marks.inScope) .nil) .refl rfl rfl
  case branch.none =>
    obtain ⟨_, _, _, first, second, rfl⟩ := parts
    have consequent := Stages.last (h.walks (.branchConsequent first)) (.stmt second)
    exact .plain (.next (h.walks .branchCondition) (.expr first) consequent) .refl rfl rfl
  case branch.some =>
    obtain ⟨_, _, _, _, _, first, second, third, rfl⟩ := parts
    have alternative := Stages.last (h.walks (.branchAlternative first second)) (.stmt third)
    have branches := Stages.next (h.walks (.branchConsequent first)) (.stmt second) alternative
    exact .plain (.next (h.walks .branchCondition) (.expr first) branches) .refl rfl rfl
  case loop =>
    obtain ⟨_, _, _, first, second, rfl⟩ := parts
    have body := Stages.last (h.walks (.loopBody first)) (.stmt second)
    exact .plain (.next (h.walks .loopCondition) (.expr first) body) .refl rfl rfl
  case functionDecl =>
    obtain ⟨_, _, declares, walk, rfl⟩ := parts
    obtain ⟨_, _, bound, body, -, rfl⟩ := routine_gives.1 walk
    exact .plain (.cons (h.walks (.functionBody declares bound)) (.stmts body)
      (fun marks => (marks.routine bound).after (.declareReady declares)) .nil) .refl rfl rfl
  case classDecl.none =>
    obtain ⟨_, _, _, _, _, declares, parents, walk, rfl, rfl⟩ := parts
    have same := superclass_gives.1 parents
    obtain ⟨rfl, rfl⟩ := same
    obtain ⟨_, members, rfl⟩ := inClassScopes_gives.1 walk
    exact .plain (.cons (h.walks (.methods declares parents)) (.methods members)
      (fun marks => (marks.methods.after (.declareReady declares)).elsewhere) .nil)
      .refl rfl rfl
  case classDecl.some =>
    obtain ⟨_, _, _, _, _, declares, parents, walk, rfl, rfl⟩ := parts
    obtain ⟨-, _, read, rfl⟩ := superclass_gives.1 parents
    obtain ⟨_, members, rfl⟩ := inClassScopes_gives.1 walk
    exact .plain (.cons (h.superclass declares) (.expr (Expr.resolve_gives.2 ⟨_, read, rfl⟩))
      (fun marks => (marks.after (.declareReady declares)).elsewhere)
      (.cons (h.walks (.methods declares parents)) (.methods members)
        (fun marks => marks.methods.elsewhere) .nil)) .refl rfl rfl
  case returns.none =>
    obtain ⟨check, rfl⟩ := parts
    obtain rfl := checkReturn_gives check
    exact .plain .nil .refl rfl rfl
  case returns.some =>
    obtain ⟨_, _, check, walk, rfl⟩ := parts
    obtain rfl := checkReturn_gives check
    exact .plain (.last (h.walks .returned) (.expr walk)) .refl rfl rfl

/-- The walk over a node where it stands, part by part. -/
theorem Occurrence.At.staged {node node' : Node} (h : At ⟨node, Γ⟩ place)
    (made : Resolves ⟨node, place⟩ node' place') :
    Staged ⟨node, Γ⟩ ⟨node', Γ⟩ place place' := by
  cases made with
  | expr gives => exact h.staged_expr gives
  | @exprs items _ _ _ gives =>
      have parts := Expr.resolveEach_gives.1 gives
      cases items with
      | nil =>
          obtain ⟨rfl, rfl⟩ := parts
          exact .plain .nil .refl rfl rfl
      | cons =>
          obtain ⟨_, _, _, first, others, rfl⟩ := parts
          have rest := Stages.last (h.walks (.otherItems first)) (.exprs others)
          exact .plain (.next (h.walks .item) (.expr first) rest) .refl rfl rfl
  | stmt gives => exact h.staged_stmt gives
  | @stmts body _ _ _ gives =>
      have parts := Stmt.resolveEach_gives.1 gives
      cases body with
      | nil =>
          obtain ⟨rfl, rfl⟩ := parts
          exact .plain .nil .refl rfl rfl
      | cons s rest =>
          obtain ⟨s', _, rest', first, others, rfl⟩ := parts
          have all : Stages [⟨.stmt s, Γ⟩, ⟨.stmts rest, Γ.after s⟩]
              [⟨.stmt s', Γ⟩, ⟨.stmts rest', Γ.after s'⟩] place place' := by
            rw [Setting.after_resolve first]
            exact .next (h.walks .statement) (.stmt first)
              (.last (h.walks (.otherStatements first)) (.stmts others))
          exact .plain all .refl rfl rfl
  | @methods members _ _ _ gives =>
      have parts := FunctionDecl.resolveEach_gives.1 gives
      rcases members with _ | ⟨⟨_, _, _⟩, _⟩
      case nil =>
        obtain ⟨rfl, rfl⟩ := parts
        exact .plain .nil .refl rfl rfl
      case cons =>
        obtain ⟨_, _, _, first, others, rfl⟩ := parts
        obtain ⟨_, _, bound, body, -, rfl⟩ := routine_gives.1 first
        exact .plain (.cons (h.walks (.methodBody bound)) (.stmts body)
          (fun marks => marks.routine bound)
          (.last (h.walks (.otherMethods first)) (.methods others))) .refl rfl rfl

/-- The parts of a node are turned into those of the node that it is turned into. -/
theorem Resolved.parts {o o' : Occurrence} (h : Resolved o o') :
    List.Forall₂ Resolved o.parts o'.parts := by
  obtain ⟨node, Γ⟩ := o
  obtain ⟨node', Γ'⟩ := o'
  obtain ⟨rfl, place, place', at', made⟩ := h
  obtain ⟨-, _, stages, -⟩ := at'.staged made
  exact stages.resolved

/-- What the walk over parts leaves behind, from what it leaves behind at each of them. -/
theorem Stages.marks {parts parts' : List Occurrence} (h : Stages parts parts' place place')
    (each : ∀ {node Γ node' start stop}, ⟨node, Γ⟩ ∈ parts → Occurrence.At ⟨node, Γ⟩ start →
      Resolves ⟨node, start⟩ node' stop →
      Marks node'.located (Occurrence.Reads ⟨node, Γ⟩) start stop) :
    Marks (parts'.flatMap fun part => part.node.located)
      (fun depth name => ∃ part ∈ parts, part.Reads depth name) place place' := by
  induction h with
  | nil => exact Marks.refl.congr rfl fun _ _ _ _ => by simp
  | cons at' made around _ ih =>
      have first := around (each List.mem_cons_self at' made)
      have others := ih fun among => each (List.mem_cons_of_mem _ among)
      exact (first.trans others).congr rfl fun _ _ _ _ => by simp

/-- What the walk over a node leaves behind: the uses are those of the node with its
distances, and the names that it marks are those that its variables are bound to. -/
theorem Occurrence.At.marks {node node' : Node} {Γ : Setting} {place place' : Surroundings}
    (h : At ⟨node, Γ⟩ place) (made : Resolves ⟨node, place⟩ node' place') :
    Marks node'.located (Occurrence.Reads ⟨node, Γ⟩) place place' := by
  obtain ⟨-, mid, stages, own⟩ := h.staged made
  have parts := stages.marks fun {part _ _ _ _} among at' made =>
    have _ : sizeOf part < sizeOf node := by
      obtain ⟨_, isPart, same⟩ := List.mem_map.1 among
      cases same
      exact node.sizeOf_part _ isPart
    at'.marks made
  refine (parts.trans own).congr ?_ fun depth _ name _ => by rw [Occurrence.reads_iff, or_comm]
  rw [node'.located_eq, Occurrence.parts, List.flatMap_map]
termination_by sizeOf node

/-- Whatever stands at the end of a path is turned into what stands there afterwards. -/
theorem Resolved.at? {o o' : Occurrence} (h : Resolved o o') (path : List Nat) :
    Option.Rel Resolved (o.at? path) (o'.at? path) := by
  induction path generalizing o o' with
  | nil => exact .some h
  | cons i path ih =>
      have parts := h.parts
      unfold Occurrence.at?
      cases isPart : o.parts[i]? with
      | none =>
          rw [List.getElem?_eq_none_iff, parts.length_eq, ← List.getElem?_eq_none_iff] at isPart
          rw [isPart]
          exact .none
      | some part =>
          obtain ⟨inside, rfl⟩ := List.getElem?_eq_some_iff.1 isPart
          have inside' : i < o'.parts.length := parts.length_eq ▸ inside
          rw [List.getElem?_eq_getElem inside']
          exact ih (parts.get inside inside')

/-- Whatever stands inside of a node is turned into something. -/
theorem Resolved.contains {o o' inner : Occurrence} (h : Resolved o o')
    (contains : o.Contains inner) : ∃ inner', Resolved inner inner' := by
  obtain ⟨path, found⟩ := contains
  have rel := h.at? path
  generalize o'.at? path = found' at rel
  rw [found] at rel
  cases rel with
  | some resolved => exact ⟨_, resolved⟩

end TreeWalk
