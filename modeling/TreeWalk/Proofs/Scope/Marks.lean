import TreeWalk.Proofs.Scope.Spots

/-!
# What a walk leaves behind

A walk of the scope rules notes the uses that it locates and marks the names that are
read. `Marks` says which uses and names these are; the steps of a walk that only enter
scopes or declare names leave nothing behind.

## Implementation notes

A scope is told by the number of scopes around it, which stays the same while the walk
enters and leaves scopes inside of it.
-/

namespace TreeWalk

open Resolve Surroundings

/-- Whether a name was read. Nothing is demanded of an implicit one. -/
def Binding.isUsed : Binding → Bool
  | implicit => true
  | declared _ _ used => used

@[simp] theorem Binding.isUsed_settled (b : Binding) : b.settled.isUsed = b.isUsed := by
  cases b <;> rfl

@[simp] theorem Binding.isUsed_read (b : Binding) : b.read.isUsed = true := by
  cases b <;> rfl

/-- A scope binds every name at most once. -/
def Scope.IsTidy (scope : Scope) : Prop := (scope.entries.map Prod.fst).Nodup

namespace Scope.IsTidy

variable {scope : Scope}

theorem empty : IsTidy .empty := List.nodup_nil

theorem modify (h : scope.IsTidy) (name : String) (f : Binding → Binding) :
    IsTidy (scope.modify name f) := by
  have same : (fun entry : String × Binding =>
      (if name == entry.1 then (entry.1, f entry.2) else entry).1) = Prod.fst := by
    funext entry
    split <;> rfl
  unfold IsTidy Bindings.modify
  rw [List.map_map, Function.comp_def, same]
  exact h

/-- Binding a name adds no other. -/
theorem names_putEntry (name : String) (b : Binding) (entries : List (String × Binding)) :
    ∀ other ∈ (Bindings.putEntry name b entries).map Prod.fst,
      other = name ∨ other ∈ entries.map Prod.fst := by
  induction entries with
  | nil => simp [Bindings.putEntry]
  | cons entry rest ih =>
      unfold Bindings.putEntry
      split
      next same => simp_all
      next =>
        intro other among
        obtain rfl | among := List.mem_cons.1 among
        · simp
        · exact (ih other among).imp_right (List.mem_cons_of_mem _)

theorem put (h : scope.IsTidy) (name : String) (b : Binding) : IsTidy (scope.put name b) := by
  obtain ⟨entries⟩ := scope
  unfold IsTidy Bindings.put at *
  dsimp only at *
  induction entries with
  | nil => simp [Bindings.putEntry]
  | cons entry rest ih =>
      obtain ⟨fresh, others⟩ := List.nodup_cons.1 h
      unfold Bindings.putEntry
      split
      next same => simpa [← beq_iff_eq.1 same] using h
      next different =>
        refine List.nodup_cons.2 ⟨fun among => ?_, ih others⟩
        obtain same | among := names_putEntry name b rest _ among
        · exact different (beq_iff_eq.2 same.symm)
        · exact fresh among

/-- The entries of a scope are what its names are bound to. -/
theorem get?_of_mem (h : scope.IsTidy) {name : String} {b : Binding}
    (among : (name, b) ∈ scope.entries) : scope.get? name = some b := by
  obtain ⟨entries⟩ := scope
  unfold IsTidy Bindings.get? at *
  dsimp only at *
  induction entries with
  | nil => cases among
  | cons entry rest ih =>
      obtain ⟨fresh, others⟩ := List.nodup_cons.1 h
      rw [Bindings.lookup_entry]
      obtain rfl | among := List.mem_cons.1 among
      · simp
      · have other : name ≠ entry.1 := by
          rintro rfl
          exact fresh (List.mem_map.2 ⟨_, among, rfl⟩)
        rw [if_neg other]
        exact ih others among

end Scope.IsTidy

/-- A scope binds a name, and the name was read. -/
def Scope.Uses (scope : Scope) (name : String) : Prop :=
  ∃ binding, scope.get? name = some binding ∧ binding.isUsed

theorem Scope.uses_read {scope : Scope} {name other : String} :
    Scope.Uses (scope.modify name Binding.read) other ↔
      scope.Uses other ∨ name = other ∧ scope.contains name := by
  unfold Scope.Uses
  rw [Bindings.get?_modify]
  split
  next same =>
    subst same
    cases bound : scope.get? other <;> simp [Bindings.contains, bound]
  next different => simp [Ne.symm different]

namespace Surroundings

/-- A name was read that is bound in the scope with a number of scopes around it. -/
def IsUsed (place : Surroundings) (depth : Nat) (name : String) : Prop :=
  ∃ distance scope, distance + depth + 1 = place.scopes.length ∧
    place.scopes[distance]? = some scope ∧ scope.Uses name

theorem modifyAt_getElem? {place : Surroundings} {distance i : Nat} {name : String}
    {f : Binding → Binding} {scope : Scope} :
    (place.modifyAt distance name f).scopes[i]? = some scope ↔
      ∃ old, place.scopes[i]? = some old ∧
        (if distance = i then old.modify name f else old) = scope := by
  simp [modifyAt, List.getElem?_modify]

theorem isUsed_head {place : Surroundings} {scope : Scope} {outer : List Scope} {name : String}
    (cut : place.scopes = scope :: outer) : place.IsUsed outer.length name ↔ scope.Uses name := by
  rw [IsUsed, cut]
  constructor
  · rintro ⟨distance, found, level, isScope, uses⟩
    obtain rfl : distance = 0 := by
      rw [List.length_cons] at level
      omega
    obtain rfl : scope = found := Option.some.inj isScope
    exact uses
  · intro uses
    exact ⟨0, scope, by simp, rfl, uses⟩

/-- The scope with a number of scopes around it is the nearest one to bind a name. -/
def Finds (place : Surroundings) (depth : Nat) (name : String) : Prop :=
  ∃ distance, place.distance? name = some distance ∧ distance + depth + 1 = place.scopes.length

end Surroundings

variable {place mid place' : Surroundings}

/-- Scopes that stay tidy, one by one. -/
abbrev StayTidy : List Scope → List Scope → Prop :=
  List.Forall₂ fun scope scope' => scope.IsTidy → scope'.IsTidy

theorem StayTidy.refl (scopes : List Scope) : StayTidy scopes scopes :=
  List.forall₂_same.2 fun _ _ => id

theorem StayTidy.trans {scopes mid scopes' : List Scope} (h : StayTidy scopes mid)
    (h' : StayTidy mid scopes') : StayTidy scopes scopes' := by
  induction h generalizing scopes' with
  | nil => exact h'
  | cons first _ ih =>
      cases h' with
      | cons second others => exact .cons (second ∘ first) (ih others)

/-- What a walk leaves behind: the uses that it has located and the names that it has
marked as read. -/
structure Marks (uses : List Located) (reads : Nat → String → Prop)
    (place place' : Surroundings) : Prop where
  found : place'.found.toList = place.found.toList ++ uses
  tidy : StayTidy place.scopes place'.scopes
  used : ∀ depth < place.scopes.length, ∀ name, IsPlainName name →
    (place'.IsUsed depth name ↔ place.IsUsed depth name ∨ reads depth name)

/-- A walk that leaves nothing behind. -/
abbrev Unmarked (place place' : Surroundings) : Prop := Marks [] (fun _ _ => False) place place'

namespace Marks

variable {uses uses' : List Located} {reads reads' : Nat → String → Prop}

theorem refl : Unmarked place place :=
  ⟨by simp, .refl _, fun _ _ _ _ => by simp⟩

theorem length (h : Marks uses reads place place') : place'.scopes.length = place.scopes.length :=
  h.tidy.length_eq.symm

theorem trans (h : Marks uses reads place mid) (h' : Marks uses' reads' mid place') :
    Marks (uses ++ uses') (fun depth name => reads depth name ∨ reads' depth name) place place' :=
  ⟨by rw [h'.found, h.found, List.append_assoc],
    h.tidy.trans h'.tidy, fun depth inside name plain => by
      rw [h'.used depth (h.length ▸ inside) name plain, h.used depth inside name plain, or_assoc]⟩

theorem congr (h : Marks uses reads place place') (same : uses = uses')
    (alike : ∀ depth < place.scopes.length, ∀ name, IsPlainName name →
      (reads depth name ↔ reads' depth name)) : Marks uses' reads' place place' :=
  ⟨same ▸ h.found, h.tidy, fun depth inside name plain => by
    rw [h.used depth inside name plain, alike depth inside name plain]⟩

theorem after (h : Marks uses reads mid place') (first : Unmarked place mid) :
    Marks uses reads place place' :=
  (first.trans h).congr rfl fun _ _ _ _ => by simp

/-- Marks have nothing to do with the function and class around a place. -/
theorem elsewhere {f f' : FunctionContext} {c c' : ClassContext}
    (h : Marks uses reads { place with functionContext := f, classContext := c } place') :
    Marks uses reads place { place' with functionContext := f', classContext := c' } :=
  ⟨h.found, h.tidy, h.used⟩

theorem isUsed_push (place : Surroundings) (scope : Scope) {depth : Nat} {name : String}
    (inside : depth < place.scopes.length) :
    IsUsed { place with scopes := scope :: place.scopes } depth name ↔
      place.IsUsed depth name := by
  constructor
  · rintro ⟨_ | distance, found, level, isScope, uses⟩
    · simp at level
      omega
    · exact ⟨distance, found, by simp at level; omega, isScope, uses⟩
  · rintro ⟨distance, found, level, isScope, uses⟩
    exact ⟨distance + 1, found, by simp; omega, isScope, uses⟩

/-- A walk inside of a new scope. -/
theorem inScope {scope : Scope} {after : Surroundings}
    (h : Marks uses reads { place with scopes := scope :: place.scopes } after) :
    Marks uses reads place { after with scopes := after.scopes.tail } := by
  obtain ⟨found, tidy, used⟩ := h
  obtain ⟨last, outer, -, others, cut⟩ := List.forall₂_cons_left_iff.1 tidy
  refine ⟨found, by rwa [cut], fun depth inside name plain => ?_⟩
  have level : depth < outer.length := others.length_eq ▸ inside
  have popped : IsUsed { after with scopes := outer } depth name ↔ after.IsUsed depth name := by
    rw [← isUsed_push { after with scopes := outer } last level, ← cut]
  rw [cut, List.tail_cons, popped, used depth (Nat.lt_succ_of_lt inside) name plain,
    isUsed_push _ scope inside]

/-- Changing the innermost scope without reading a name. -/
theorem unmarked_head {scope scope' : Scope} {outer : List Scope}
    (cut : place.scopes = scope :: outer) (tidy : scope.IsTidy → scope'.IsTidy)
    (uses : ∀ name, scope'.Uses name ↔ scope.Uses name) :
    Unmarked place { place with scopes := scope' :: outer } := by
  refine ⟨by simp, ?_, fun depth _ name _ => ?_⟩
  · rw [cut]
    exact .cons tidy (StayTidy.refl outer)
  · rw [or_false, IsUsed, IsUsed, cut]
    refine exists_congr fun distance => ?_
    cases distance with
    | zero => simp [uses]
    | succ distance => rfl

theorem declare {name : Token} {u : Unit} (h : (declare name).Gives place u place') :
    Unmarked place place' := by
  have h := declare_gives.1 h
  cases cut : place.scopes with
  | nil =>
      rw [cut] at h
      exact h ▸ .refl
  | cons scope outer =>
      rw [cut] at h
      obtain ⟨fresh, rfl⟩ := h
      refine unmarked_head cut (fun tidy => tidy.put _ _) fun other => ?_
      have none : scope.get? name.lexeme = none := by simpa [Bindings.contains] using fresh
      unfold Scope.Uses
      rw [Bindings.get?_put]
      split
      next same => simp [same, none, Binding.isUsed]
      next => rfl

theorem settle {name : Token} {u : Unit} (h : (settle name).Gives place u place') :
    Unmarked place place' := by
  obtain rfl := modify_gives.1 h
  unfold modifyAt
  cases cut : place.scopes with
  | nil => exact ⟨by simp, by simp [cut], by simp [cut]⟩
  | cons scope outer =>
      refine unmarked_head cut (fun tidy => tidy.modify _ _) fun other => ?_
      unfold Scope.Uses
      rw [Bindings.get?_modify]
      split
      next same => simp
      next => rfl

theorem declareReady {name : Token} {u : Unit} (h : (declareReady name).Gives place u place') :
    Unmarked place place' := by
  obtain ⟨mid, first, second⟩ := declareReady_gives.1 h
  exact (settle second).after (declare first)

theorem params {params : List Token} {u : Unit}
    (h : (params.forM Resolve.declareReady).Gives place u place') : Unmarked place place' := by
  induction params generalizing place with
  | nil =>
      obtain ⟨-, rfl⟩ := pure_gives.1 h
      exact .refl
  | cons param params ih =>
      rw [List.forM_eq_forM, List.forM_cons, bind_gives] at h
      obtain ⟨_, mid, first, others⟩ := h
      exact (ih others).after (declareReady first)

/-- The walk over a function leaves behind what that over its body does. -/
theorem routine {context : FunctionContext} {names : List Token} {after : Surroundings}
    (bound : (names.forM Resolve.declareReady).Gives (bodyPlace context place) () mid)
    (h : Marks uses reads (blockPlace mid) after) :
    Marks uses reads place { after with
      scopes := after.scopes.tail.tail, functionContext := place.functionContext } := by
  have inner := h.inScope.after (params bound)
  have around : Marks uses reads { place with functionContext := context } _ := inner.inScope
  exact around.elsewhere

/-- The walk inside of the scopes of a class leaves the same behind around them. -/
theorem methods {hasSuperclass : Bool} {after : Surroundings}
    (h : Marks uses reads (methodsPlace hasSuperclass place) after) :
    Marks uses reads place { after with
      scopes := if hasSuperclass then after.scopes.tail.tail else after.scopes.tail } := by
  cases hasSuperclass with
  | false => exact h.inScope
  | true =>
      have inner : Marks uses reads
          { place with scopes := .ofImplicit "super" :: place.scopes } _ := h.inScope
      exact inner.inScope

theorem tidy_modify (scopes : List Scope) (distance : Nat) (name : String) :
    StayTidy scopes (scopes.modify distance fun scope => scope.modify name Binding.read) := by
  induction scopes generalizing distance with
  | nil =>
      rw [List.modify_nil]
      exact .nil
  | cons scope outer ih =>
      cases distance with
      | zero => exact .cons (fun tidy => tidy.modify _ _) (StayTidy.refl outer)
      | succ distance => exact .cons id (ih distance)

/-- A use that is located is noted, and marks the name unless it is assigned. -/
theorem locate {use : Use} {reference reference' : Reference}
    (h : (locate use reference).Gives place reference' place') :
    Marks (reference'.distance.map fun distance => ⟨use, reference'.name, distance⟩).toList
      (fun depth name => use ≠ .assign ∧ reference.name.lexeme = name ∧ place.Finds depth name)
      place place' := by
  have h := locate_gives.1 h
  split at h
  next far =>
    obtain ⟨rfl, rfl⟩ := h
    refine refl.congr rfl fun depth _ name _ => ?_
    rw [false_iff]
    rintro ⟨-, rfl, distance, near, -⟩
    rw [far] at near
    cases near
  next distance near =>
    obtain ⟨rfl, rfl⟩ := h
    dsimp only
    split
    next isAssign => exact ⟨by simp, .refl _, by simp [isAssign, IsUsed]⟩
    next reads =>
      obtain ⟨inside, binds, -⟩ := List.findIdx?_eq_some_iff_getElem.1 near
      refine ⟨by simp [modifyAt], tidy_modify _ _ _, fun depth _ name _ => ?_⟩
      constructor
      · rintro ⟨i, scope, level, isScope, uses⟩
        obtain ⟨old, isOld, rfl⟩ := modifyAt_getElem?.1 isScope
        rw [modifyAt, List.length_modify] at level
        split at uses
        next here =>
          obtain uses | ⟨rfl, -⟩ := Scope.uses_read.1 uses
          · exact .inl ⟨i, old, level, isOld, uses⟩
          · exact .inr ⟨reads, rfl, i, here ▸ near, level⟩
        next => exact .inl ⟨i, old, level, isOld, uses⟩
      · rintro (⟨i, old, level, isOld, uses⟩ | ⟨-, rfl, i, nearest, level⟩)
        · refine ⟨i, _, by simpa [modifyAt] using level,
            modifyAt_getElem?.2 ⟨old, isOld, rfl⟩, ?_⟩
          split
          · exact Scope.uses_read.2 (.inl uses)
          · exact uses
        · obtain rfl : distance = i := Option.some.inj (near.symm.trans nearest)
          refine ⟨distance, _, by simpa [modifyAt] using level,
            modifyAt_getElem?.2 ⟨_, List.getElem?_eq_getElem inside, rfl⟩, ?_⟩
          rw [if_pos rfl]
          exact Scope.uses_read.2 (.inr ⟨rfl, binds⟩)

end Marks

end TreeWalk
