import TreeWalk.Proofs.Counterparts.Trees
import TreeWalk.Proofs.Paired
import TreeWalk.Scope.Surroundings

/-!
# Surroundings that differ in their lines

The elementary steps of the walk over a program, begun in surroundings that are alike, do
the same, or find the same violation at tokens that are counterparts.

## Implementation notes

The uses found before the two walks may be of any number, so that walks can be compared
that begin at different places of a program. What the walks find themselves is alike.
-/

namespace TreeWalk

variable {α α' : Type} {R : Correspondence} {before before' : List Located}

theorem isSome_eq_of_rel {Q : α → α' → Prop} {o : Option α} {o' : Option α'}
    (h : Option.Rel Q o o') : o.isSome = o'.isSome := by
  cases h with
  | _ => rfl

theorem findSome?_rel {β β' : Type} {P : α → α' → Prop} {Q : β → β' → Prop} {f : α → Option β}
    {g : α' → Option β'} {row : List α} {row' : List α'} (rows : List.Forall₂ P row row')
    (each : ∀ a a', P a a' → Option.Rel Q (f a) (g a')) :
    Option.Rel Q (row.findSome? f) (row'.findSome? g) := by
  induction rows with
  | nil => exact .none
  | @cons a a' rest rest' same _ ih =>
    rw [List.findSome?_cons, List.findSome?_cons]
    have first := each a a' same
    generalize f a = o, g a' = o' at first
    cases first with
    | some found => exact .some found
    | none => exact ih

theorem forall₂_tail {P : α → α' → Prop} {row : List α} {row' : List α'}
    (rows : List.Forall₂ P row row') : List.Forall₂ P row.tail row'.tail := by
  cases rows with
  | nil => exact .nil
  | cons _ rows => exact rows

theorem forall₂_modify {P : α → α' → Prop} {f : α → α} {g : α' → α'} {row : List α}
    {row' : List α'} (rows : List.Forall₂ P row row') (both : ∀ a a', P a a' → P (f a) (g a'))
    (n : Nat) : List.Forall₂ P (row.modify n f) (row'.modify n g) := by
  induction rows generalizing n with
  | nil => cases n <;> exact .nil
  | cons same rows ih =>
    cases n with
    | zero => exact .cons (both _ _ same) rows
    | succ n => exact .cons same (ih n)

/-- The same names are bound, in the same order, to what is alike. -/
def Bindings.Like (Q : α → α' → Prop) (b : Bindings α) (b' : Bindings α') : Prop :=
  List.Forall₂ (fun entry entry' => entry.1 = entry'.1 ∧ Q entry.2 entry'.2) b.entries b'.entries

namespace Bindings.Like

variable {Q : α → α' → Prop} {b : Bindings α} {b' : Bindings α'} {name : String}

theorem empty : Bindings.empty.Like Q Bindings.empty := .nil

theorem get? (h : b.Like Q b') (name : String) : Option.Rel Q (b.get? name) (b'.get? name) := by
  obtain ⟨entries⟩ := b
  obtain ⟨entries'⟩ := b'
  simp only [Bindings.Like, Bindings.get?] at h ⊢
  induction h with
  | nil => exact .none
  | @cons entry entry' rest rest' same _ ih =>
    rw [lookup_entry, lookup_entry, ← same.1]
    split
    · exact .some same.2
    · exact ih

theorem contains (h : b.Like Q b') (name : String) : b.contains name = b'.contains name :=
  isSome_eq_of_rel (h.get? name)

theorem put {value : α} {value' : α'} (h : b.Like Q b') (same : Q value value') :
    (b.put name value).Like Q (b'.put name value') := by
  obtain ⟨entries⟩ := b
  obtain ⟨entries'⟩ := b'
  simp only [Bindings.Like, Bindings.put] at h ⊢
  induction h with
  | nil => exact .cons ⟨rfl, same⟩ .nil
  | @cons entry entry' rest rest' alike rows ih =>
    rw [putEntry, putEntry, ← alike.1]
    split
    · exact .cons ⟨rfl, same⟩ rows
    · exact .cons alike ih

theorem modify {f : α → α} {g : α' → α'} (h : b.Like Q b')
    (both : ∀ a a', Q a a' → Q (f a) (g a')) : (b.modify name f).Like Q (b'.modify name g) := by
  simp only [Bindings.Like, Bindings.modify, List.forall₂_map_left_iff,
    List.forall₂_map_right_iff] at h ⊢
  refine h.imp fun entry entry' same => ?_
  rw [← same.1]
  by_cases named : (name == entry.1) = true
  · rw [if_pos named, if_pos named]
    exact ⟨rfl, both _ _ same.2⟩
  · rw [if_neg named, if_neg named]
    exact same

end Bindings.Like

/-- Two scopes know the same about a name, at sites that are counterparts. -/
inductive Binding.Like (R : Correspondence) : Binding → Binding → Prop
  | implicit : Binding.Like R .implicit .implicit
  | declared {site site' : Token} {ready used : Bool} : R.relates site site' →
      Binding.Like R (.declared site ready used) (.declared site' ready used)

theorem Binding.Like.settled {b b' : Binding} (h : b.Like R b') : b.settled.Like R b'.settled := by
  cases h with
  | implicit => exact .implicit
  | declared same => exact .declared same

theorem Binding.Like.read {b b' : Binding} (h : b.Like R b') : b.read.Like R b'.read := by
  cases h with
  | implicit => exact .implicit
  | declared same => exact .declared same

theorem Binding.Like.isReady {b b' : Binding} (h : b.Like R b') : b.isReady = b'.isReady := by
  cases h with
  | _ => rfl

/-- Two scopes are alike. -/
abbrev Scope.Like (R : Correspondence) (scope scope' : Scope) : Prop :=
  Bindings.Like (Binding.Like R) scope scope'

theorem Scope.ofImplicit_like (name : String) :
    (Scope.ofImplicit name).Like R (Scope.ofImplicit name) :=
  Bindings.Like.empty.put .implicit

/-- Two violations of the scope rules are the same, at tokens that are counterparts. -/
structure ScopeError.Like (R : Correspondence) (e e' : ScopeError) : Prop where
  cause : e.cause = e'.cause
  token : R.relates e.token e'.token

theorem Scope.fault?_like {locals locals' parameters parameters' : Scope}
    (h : locals.Like R locals') (h' : parameters.Like R parameters') :
    Option.Rel (ScopeError.Like R) (locals.fault? parameters) (locals'.fault? parameters') := by
  refine findSome?_rel h fun entry entry' same => ?_
  obtain ⟨name, binding⟩ := entry
  obtain ⟨name', binding'⟩ := entry'
  obtain ⟨rfl, same⟩ : name = name' ∧ binding.Like R binding' := same
  cases same with
  | implicit => exact .none
  | @declared site site' ready used same =>
    dsimp only
    rw [h'.contains]
    by_cases conflict : parameters'.contains name = true
    · rw [if_pos conflict, if_pos conflict]
      exact .some ⟨rfl, same⟩
    · rw [if_neg conflict, if_neg conflict]
      cases used with
      | true => exact .none
      | false => exact .some ⟨rfl, same⟩

/-- Two uses of local names are alike. -/
structure Located.Like (R : Correspondence) (one other : Located) : Prop where
  use : one.use = other.use
  name : R.relates one.name other.name
  distance : one.distance = other.distance

/-- Two places in programs have surroundings that are alike, and behind what was found
before, the same uses were found. -/
structure Surroundings.Like (R : Correspondence) (before before' : List Located)
    (place place' : Surroundings) : Prop where
  scopes : List.Forall₂ (Scope.Like R) place.scopes place'.scopes
  functionContext : place.functionContext = place'.functionContext
  classContext : place.classContext = place'.classContext
  found : ∃ uses uses', place.found.toList = before ++ uses ∧
    place'.found.toList = before' ++ uses' ∧ List.Forall₂ (Located.Like R) uses uses'

namespace Surroundings.Like

theorem initial : Surroundings.Like R [] [] .initial .initial :=
  ⟨.nil, rfl, rfl, [], [], rfl, rfl, .nil⟩

variable {place place' : Surroundings}

theorem distance? (h : Surroundings.Like R before before' place place') (name : String) :
    place.distance? name = place'.distance? name := by
  have scopes := h.scopes
  unfold Surroundings.distance?
  generalize place.scopes = row, place'.scopes = row' at scopes
  induction scopes with
  | nil => rfl
  | cons same _ ih => rw [List.findIdx?_cons, List.findIdx?_cons, same.contains, ih]

theorem modifyAt (h : Surroundings.Like R before before' place place') (distance : Nat)
    (name : String) {f : Binding → Binding}
    (both : ∀ b b', Binding.Like R b b' → (f b).Like R (f b')) :
    Surroundings.Like R before before' (place.modifyAt distance name f)
      (place'.modifyAt distance name f) where
  scopes := forall₂_modify h.scopes (fun _ _ same => same.modify both) distance
  functionContext := h.functionContext
  classContext := h.classContext
  found := h.found

theorem push (h : Surroundings.Like R before before' place place') {one other : Located}
    (same : one.Like R other) :
    Surroundings.Like R before before' { place with found := place.found.push one }
      { place' with found := place'.found.push other } where
  scopes := h.scopes
  functionContext := h.functionContext
  classContext := h.classContext
  found := by
    obtain ⟨uses, uses', cut, cut', rows⟩ := h.found
    refine ⟨uses ++ [one], uses' ++ [other], ?_, ?_, List.rel_append rows (.cons same .nil)⟩
    · rw [Array.toList_push, cut, List.append_assoc]
    · rw [Array.toList_push, cut', List.append_assoc]

end Surroundings.Like

namespace Resolve

/-- Walks are compared in surroundings that are alike. -/
def likeness (R : Correspondence) (before before' : List Located) :
    Likeness ScopeError Surroundings :=
  ⟨Surroundings.Like R before before', ScopeError.Like R⟩

variable {Q : α → α' → Prop} {x : Resolve α} {y : Resolve α'} {t u : Token}

theorem fail_paired {cause : ScopeCause} (h : R.relates t u) :
    Paired (likeness R before before') Q (fail cause t) (fail cause u) :=
  .throw ⟨rfl, h⟩

theorem inScope_paired {scope scope' : Scope} (h : scope.Like R scope')
    (act : Paired (likeness R before before') Q x y) :
    Paired (likeness R before before') Q (inScope scope x) (inScope scope' y) := by
  intro place place' alike
  have inner : Surroundings.Like R before before' { place with scopes := scope :: place.scopes }
      { place' with scopes := scope' :: place'.scopes } :=
    { alike with scopes := .cons h alike.scopes }
  have both := act inner
  unfold inScope
  generalize x _ = one, y _ = other at both
  cases both with
  | ok same mid => exact .ok same { mid with scopes := forall₂_tail mid.scopes }
  | error same mid => exact .error same { mid with scopes := forall₂_tail mid.scopes }

theorem inFunction_paired (context : FunctionContext)
    (act : Paired (likeness R before before') Q x y) :
    Paired (likeness R before before') Q (inFunction context x) (inFunction context y) := by
  intro place place' alike
  have inner : Surroundings.Like R before before' { place with functionContext := context }
      { place' with functionContext := context } :=
    { alike with functionContext := rfl }
  have both := act inner
  unfold inFunction
  generalize x _ = one, y _ = other at both
  cases both with
  | ok same mid => exact .ok same { mid with functionContext := alike.functionContext }
  | error same mid => exact .error same { mid with functionContext := alike.functionContext }

theorem inClass_paired (context : ClassContext) (act : Paired (likeness R before before') Q x y) :
    Paired (likeness R before before') Q (inClass context x) (inClass context y) := by
  intro place place' alike
  have inner : Surroundings.Like R before before' { place with classContext := context }
      { place' with classContext := context } :=
    { alike with classContext := rfl }
  have both := act inner
  unfold inClass
  generalize x _ = one, y _ = other at both
  cases both with
  | ok same mid => exact .ok same { mid with classContext := alike.classContext }
  | error same mid => exact .error same { mid with classContext := alike.classContext }

theorem declare_paired (h : R.relates t u) :
    Paired (likeness R before before') Eq (declare t) (declare u) := by
  refine Paired.get.bind fun place place' alike => ?_
  have scopes : List.Forall₂ (Scope.Like R) place.scopes place'.scopes := alike.scopes
  generalize place.scopes = row, place'.scopes = row' at scopes
  cases scopes with
  | nil => exact .pure rfl
  | @cons scope scope' outer outer' first others =>
    dsimp only
    rw [(R.sameWord h).lexeme, first.contains]
    refine .ite Iff.rfl (fail_paired h) (.modify fun place place' alike => ?_)
    exact { alike with scopes := .cons (first.put (.declared h)) others }

theorem settle_paired (h : R.relates t u) :
    Paired (likeness R before before') Eq (settle t) (settle u) := by
  unfold settle
  rw [(R.sameWord h).lexeme]
  exact .modify fun place place' alike => alike.modifyAt 0 _ fun _ _ same => same.settled

theorem declareReady_paired (h : R.relates t u) :
    Paired (likeness R before before') Eq (declareReady t) (declareReady u) :=
  (declare_paired h).bind_same fun _ => settle_paired h

theorem checkReady_paired (h : R.relates t u) :
    Paired (likeness R before before') Eq (checkReady t) (checkReady u) := by
  refine Paired.get.bind fun place place' alike => ?_
  have scopes : List.Forall₂ (Scope.Like R) place.scopes place'.scopes := alike.scopes
  generalize place.scopes = row, place'.scopes = row' at scopes
  cases scopes with
  | nil => exact .pure rfl
  | @cons scope scope' _ _ first _ =>
    dsimp only
    rw [(R.sameWord h).lexeme]
    have known := first.get? u.lexeme
    generalize scope.get? u.lexeme = b, scope'.get? u.lexeme = b' at known
    cases known with
    | none => exact .pure rfl
    | some same =>
      dsimp only
      rw [same.isReady]
      exact .ite Iff.rfl (.pure rfl) (fail_paired h)

theorem locate_paired (use : Use) {r r' : Reference} (h : r.Like R r') :
    Paired (likeness R before before') (Reference.Like R) (locate use r) (locate use r') := by
  refine Paired.get.bind fun place place' alike => ?_
  dsimp only
  rw [(R.sameWord h.name).lexeme, Surroundings.Like.distance? alike]
  generalize place'.distance? r'.name.lexeme = found
  cases found with
  | none => exact .pure ⟨h.name, rfl⟩
  | some distance =>
    refine (Paired.modify fun place place' alike => ?_).bind_same fun _ => .pure ⟨h.name, rfl⟩
    have noted := Surroundings.Like.push alike (⟨rfl, h.name, rfl⟩ :
      Located.Like R ⟨use, r.name, distance⟩ ⟨use, r'.name, distance⟩)
    split
    · exact noted
    · exact noted.modifyAt distance _ fun _ _ same => same.read

theorem readVariable_paired {r r' : Reference} (h : r.Like R r') :
    Paired (likeness R before before') (Reference.Like R) (readVariable r) (readVariable r') :=
  (checkReady_paired h.name).bind_same fun _ => locate_paired .variable h

/-- A fault of a scope, if there is one, is thrown. -/
theorem throw_fault_paired {fault fault' : Option ScopeError} :
    Option.Rel (ScopeError.Like R) fault fault' → Paired (likeness R before before') Eq
      (if let some e := fault then throw e else return () : Resolve Unit)
      (if let some e := fault' then throw e else return ()) := by
  intro h
  cases h with
  | none => exact .pure rfl
  | some same => exact .throw same

theorem checkBlock_paired : Paired (likeness R before before') Eq checkBlock checkBlock := by
  refine Paired.get.bind fun place place' alike => ?_
  have scopes : List.Forall₂ (Scope.Like R) place.scopes place'.scopes := alike.scopes
  have context : place.functionContext = place'.functionContext := alike.functionContext
  generalize place.scopes = row, place'.scopes = row' at scopes
  rw [context]
  cases scopes with
  | nil => exact .pure rfl
  | cons first _ =>
    exact .ite Iff.rfl (.pure rfl) (throw_fault_paired (Scope.fault?_like first .empty))

theorem checkBody_paired : Paired (likeness R before before') Eq checkBody checkBody := by
  refine Paired.get.bind fun place place' alike => ?_
  have scopes : List.Forall₂ (Scope.Like R) place.scopes place'.scopes := alike.scopes
  generalize place.scopes = row, place'.scopes = row' at scopes
  obtain _ | ⟨first, _ | ⟨second, -⟩⟩ := scopes
  · exact .pure rfl
  · exact .pure rfl
  · exact throw_fault_paired (Scope.fault?_like first second)

theorem routine_paired (context : FunctionContext) {params params' : List Token}
    (rows : List.Forall₂ R.relates params params')
    (body : Paired (likeness R before before') Q x y) :
    Paired (likeness R before before') Q (routine context params x)
      (routine context params' y) := by
  refine inFunction_paired context (inScope_paired .empty ?_)
  refine (Paired.forM rows fun _ _ => declareReady_paired).bind_same fun _ => ?_
  exact inScope_paired .empty (body.bind fun _ _ same =>
    checkBody_paired.bind_same fun _ => .pure same)

theorem inClassScopes_paired (hasSuperclass : Bool)
    (act : Paired (likeness R before before') Q x y) :
    Paired (likeness R before before') Q (inClassScopes hasSuperclass x)
      (inClassScopes hasSuperclass y) := by
  have inner := inScope_paired (Scope.ofImplicit_like "this") act
  exact .ite Iff.rfl (inScope_paired (Scope.ofImplicit_like "super") inner) inner

theorem superclass_paired (h : R.relates t u) {parent parent' : Option Reference}
    (same : Option.Rel (Reference.Like R) parent parent') :
    Paired (likeness R before before') (Option.Rel (Reference.Like R)) (superclass t parent)
      (superclass u parent') := by
  cases same with
  | none => exact .pure .none
  | some same =>
    unfold superclass
    dsimp only
    rw [(R.sameWord h).lexeme, (R.sameWord same.name).lexeme]
    exact .ite Iff.rfl (fail_paired same.name)
      ((readVariable_paired same).bind fun _ _ found => .pure (.some found))

theorem checkReturn_paired (h : R.relates t u) (hasValue : Bool) :
    Paired (likeness R before before') Eq (checkReturn t hasValue) (checkReturn u hasValue) := by
  refine Paired.get.bind fun place place' alike => ?_
  have context : place.functionContext = place'.functionContext := alike.functionContext
  dsimp only
  rw [context]
  exact .ite Iff.rfl (fail_paired h) (.ite Iff.rfl (fail_paired h) (.pure rfl))

theorem checkThis_paired (h : R.relates t u) :
    Paired (likeness R before before') Eq (checkThis t) (checkThis u) := by
  refine Paired.get.bind fun place place' alike => ?_
  have context : place.classContext = place'.classContext := alike.classContext
  rw [context]
  exact .ite Iff.rfl (fail_paired h) (.pure rfl)

theorem checkSuper_paired (h : R.relates t u) :
    Paired (likeness R before before') Eq (checkSuper t) (checkSuper u) := by
  refine Paired.get.bind fun place place' alike => ?_
  have context : place.classContext = place'.classContext := alike.classContext
  rw [context]
  split
  · exact fail_paired h
  · exact fail_paired h
  · exact .pure rfl

end Resolve

end TreeWalk
