import TreeWalk.Frames.Operation
import TreeWalk.Proofs.Run.Growth

/-!
# Frames are shared maps

Whatever operations have made some frames, reading and changing a name from a frame both act
on the nearest frame outward that binds it. A change overwrites one value of one frame, and
whoever comes to that frame first sees it, as long as no operation overwrites it again. From
the frame at a distance names are read and changed as from that frame itself.

## Implementation notes

The functions on frames go by the chain of a frame. `Nearest` and `Outward` follow the links
one by one and know of no chain; the two agree because links lead to older frames, which
every operation keeps.
-/

namespace TreeWalk.Frames

variable {α : Type} {fs : Frames α} {f i j k p : FrameId} {x : String} {d n : Nat}

/-- Links lead to older frames. -/
def LeadsBack (fs : Frames α) : Prop := ∀ ⦃i p⦄, fs.parent? i = some p → p < i

/-- So many links outward from a frame lies another one. -/
inductive Outward (fs : Frames α) : Nat → FrameId → FrameId → Prop
  | here {i : FrameId} : Outward fs 0 i i
  | link {d : Nat} {i p j : FrameId} : fs.parent? i = some p → Outward fs d p j →
      Outward fs (d + 1) i j

/-- The nearest frame outward from a frame that binds a name. -/
inductive Nearest (fs : Frames α) (x : String) : FrameId → FrameId → Prop
  | here {i : FrameId} : fs.Has i x → Nearest fs x i i
  | link {i p j : FrameId} : ¬ fs.Has i x → fs.parent? i = some p → Nearest fs x p j →
      Nearest fs x i j

/-- So many links lead outward from a frame. -/
def IsDepth (fs : Frames α) (f : FrameId) (n : Nat) : Prop :=
  ∃ root, fs.Outward n f root ∧ fs.parent? root = none

theorem Outward.unique (h : fs.Outward d i j) (h' : fs.Outward d i k) : j = k := by
  induction h with
  | here => cases h'; rfl
  | link link _ ih =>
    cases h' with
    | link link' rest =>
      obtain rfl := Option.some.inj (link.symm.trans link')
      exact ih rest

theorem Nearest.unique (h : fs.Nearest x i j) (h' : fs.Nearest x i k) : j = k := by
  induction h with
  | here has =>
    cases h' with
    | here => rfl
    | link lacks => exact absurd has lacks
  | link lacks link _ ih =>
    cases h' with
    | here has => exact absurd has lacks
    | link _ link' rest =>
      obtain rfl := Option.some.inj (link.symm.trans link')
      exact ih rest

theorem Nearest.has (h : fs.Nearest x i j) : fs.Has j x := by
  induction h with
  | here has => exact has
  | link _ _ _ ih => exact ih

section

variable (back : fs.LeadsBack)
include back

/-- The frames on the way outward are those of the chain. -/
theorem ancestor?_eq_some : fs.ancestor? i d = some j ↔ fs.Outward d i j := by
  induction d generalizing i with
  | zero =>
    obtain ⟨rest, cut⟩ := chain_head fs i
    rw [ancestor?, cut, List.getElem?_cons_zero, Option.some.injEq]
    constructor
    · rintro rfl
      exact .here
    · intro h
      cases h
      rfl
  | succ d ih =>
    cases link : fs.parent? i with
    | none =>
      rw [ancestor?, chain_of_none link]
      constructor
      · intro found
        cases found
      · intro h
        cases h with
        | link link' => rw [link] at link'; cases link'
    | some p =>
      rw [ancestor?, chain_of_some link (back link), List.getElem?_cons_succ]
      refine ih.trans ⟨.link link, fun h => ?_⟩
      cases h with
      | link link' rest =>
        obtain rfl := Option.some.inj (link.symm.trans link')
        exact rest

/-- The frame in which a name is found along the chain is the nearest one. -/
theorem owner?_eq_some : fs.owner? i x = some j ↔ fs.Nearest x i j := by
  induction i using Nat.strongRecOn with
  | ind i ih =>
    by_cases has : fs.Has i x
    · rw [owner?_of_has has, Option.some.injEq]
      constructor
      · rintro rfl
        exact .here has
      · exact fun h => (Nearest.here has).unique h
    · have skips : (fs.local? i x).isSome = false := Bool.eq_false_iff.2 has
      cases link : fs.parent? i with
      | none =>
        simp only [owner?, chain_of_none link, List.find?_cons, skips, List.find?_nil]
        constructor
        · intro found
          cases found
        · intro h
          cases h with
          | here has' => exact absurd has' has
          | link _ link' => rw [link] at link'; cases link'
      | some p =>
        simp only [owner?, chain_of_some link (back link), List.find?_cons, skips]
        refine (ih p (back link)).trans ⟨.link has link, fun h => ?_⟩
        cases h with
        | here has' => exact absurd has' has
        | link _ link' rest =>
          obtain rfl := Option.some.inj (link.symm.trans link')
          exact rest

/-- Links outward end. -/
theorem exists_isDepth (f : FrameId) : ∃ n, fs.IsDepth f n := by
  induction f using Nat.strongRecOn with
  | ind f ih =>
    cases link : fs.parent? f with
    | none => exact ⟨0, f, .here, link⟩
    | some p =>
      obtain ⟨n, root, outward, last⟩ := ih p (back link)
      exact ⟨n + 1, root, .link link outward, last⟩

end

/-- There is a frame at each distance up to the depth and at no other. -/
theorem IsDepth.exists_outward (h : fs.IsDepth f n) : (∃ j, fs.Outward d f j) ↔ d ≤ n := by
  obtain ⟨root, outward, last⟩ := h
  induction outward generalizing d with
  | here =>
    constructor
    · rintro ⟨j, _ | ⟨link, -⟩⟩
      · exact Nat.le_refl 0
      · rw [last] at link; cases link
    · intro le
      obtain rfl := Nat.le_zero.1 le
      exact ⟨_, .here⟩
  | @link n i p root link _ ih =>
    constructor
    · rintro ⟨j, _ | ⟨link', rest⟩⟩
      · exact Nat.zero_le _
      · obtain rfl := Option.some.inj (link.symm.trans link')
        exact Nat.succ_le_succ ((ih last).1 ⟨j, rest⟩)
    · intro le
      cases d with
      | zero => exact ⟨i, .here⟩
      | succ d =>
        obtain ⟨j, rest⟩ := (ih last).2 (Nat.le_of_succ_le_succ le)
        exact ⟨j, .link link rest⟩

/-- The frames that an operation is about exist. -/
def Operation.Within (fs : Frames α) : Operation α → Prop
  | .make parent => ∀ p ∈ parent, p < fs.size
  | .define frame .. | .assign frame .. | .assignAt frame .. | .get frame .. | .getAt frame ..
  | .ancestor frame .. => frame < fs.size

instance (fs : Frames α) : (operation : Operation α) → Decidable (operation.Within fs)
  | .make parent => inferInstanceAs (Decidable (∀ p ∈ parent, p < fs.size))
  | .define frame .. | .assign frame .. | .assignAt frame .. | .get frame .. | .getAt frame ..
  | .ancestor frame .. => inferInstanceAs (Decidable (frame < fs.size))

/-- An operation gives a value to a name of a frame. -/
def Operation.Writes (fs : Frames α) (j : FrameId) (x : String) : Operation α → Prop
  | .define frame name _ => frame = j ∧ name = x
  | .assign frame name _ => name.lexeme = x ∧ fs.Nearest x frame j
  | .assignAt frame distance name _ =>
    name.lexeme = x ∧ ∃ k, fs.Outward distance frame k ∧ fs.Nearest x k j
  | .make _ | .get .. | .getAt .. | .ancestor .. => False

/-- Frames that operations have made from none, failed operations included. -/
inductive Made : Frames α → Prop
  | empty : Made .empty
  | after {fs : Frames α} {operation : Operation α} : Made fs → operation.Within fs →
      Made (fs.perform operation).2

/-- Frames that operations have made from others, none of which writes a name of a frame. -/
inductive Spared (j : FrameId) (x : String) (fs : Frames α) : Frames α → Prop
  | start : Spared j x fs fs
  | after {later : Frames α} {operation : Operation α} : Spared j x fs later →
      operation.Within later → ¬ operation.Writes later j x →
      Spared j x fs (later.perform operation).2

theorem changed_cases (fs : Frames α) (result : Result α) (after : Except Stop (Frames α)) :
    (fs.changed result after).2 = fs ∨ after = .ok (fs.changed result after).2 := by
  cases after with
  | ok after => exact .inr rfl
  | error stop => exact .inl rfl

theorem writeAt_eq (fs : Frames α) (f : FrameId) (d : Nat) (name : Token) (value : α) :
    fs.writeAt f d name value = fs.ancestor f d >>= fun j => fs.write j name value := by
  unfold writeAt targetAt write
  cases fs.ancestor f d <;> rfl

section

variable (back : fs.LeadsBack)
include back

/-- A name is changed in the nearest frame that binds it. -/
theorem write_cases {name : Token} {value : α} {fs' : Frames α}
    (h : fs.write f name value = .ok fs') :
    ∃ j, fs.Nearest name.lexeme f j ∧ fs' = fs.define j name.lexeme value := by
  unfold write target at h
  cases found : fs.owner? f name.lexeme with
  | none => rw [found] at h; cases h
  | some j => rw [found] at h; cases h; exact ⟨j, (owner?_eq_some back).1 found, rfl⟩

theorem writeAt_cases {name : Token} {value : α} {fs' : Frames α}
    (h : fs.writeAt f d name value = .ok fs') :
    ∃ j, fs.Outward d f j ∧ fs.write j name value = .ok fs' := by
  rw [writeAt_eq, ancestor] at h
  cases found : fs.ancestor? f d with
  | none => rw [found] at h; cases h
  | some j => rw [found] at h; exact ⟨j, (ancestor?_eq_some back).1 found, h⟩

/-- An operation makes a frame, leaves the frames alone, or binds a name that it writes. -/
theorem perform_cases (operation : Operation α) (within : operation.Within fs) :
    (∃ parent, operation = .make parent ∧ (fs.perform operation).2 = fs.push parent) ∨
      (fs.perform operation).2 = fs ∨
        ∃ i x value, i < fs.size ∧ operation.Writes fs i x ∧
          (fs.perform operation).2 = fs.define i x value := by
  cases operation with
  | make parent => exact .inl ⟨parent, rfl, rfl⟩
  | define frame name value => exact .inr (.inr ⟨frame, name, value, within, ⟨rfl, rfl⟩, rfl⟩)
  | assign frame name value =>
    refine .inr ((changed_cases fs _ _).imp_right fun after => ?_)
    obtain ⟨j, nearest, made⟩ := write_cases back after
    exact ⟨j, _, value, size_of_has nearest.has, ⟨rfl, nearest⟩, made⟩
  | assignAt frame distance name value =>
    refine .inr ((changed_cases fs _ _).imp_right fun after => ?_)
    obtain ⟨k, outward, after⟩ := writeAt_cases back after
    obtain ⟨j, nearest, made⟩ := write_cases back after
    exact ⟨j, _, value, size_of_has nearest.has, ⟨rfl, k, outward, nearest⟩, made⟩
  | get | getAt | ancestor => exact .inr (.inl rfl)

theorem perform_leadsBack {operation : Operation α} (within : operation.Within fs) :
    (fs.perform operation).2.LeadsBack := by
  intro i p link
  obtain ⟨parent, rfl, eq⟩ | eq | ⟨j, x, value, -, -, eq⟩ := perform_cases back operation within
  · rw [eq, parent?_push] at link
    split at link
    next new => exact new ▸ within p link
    next => exact back link
  · exact back (eq ▸ link)
  · rw [eq, parent?_define] at link
    exact back link

/-- An operation that does not write a name of a frame keeps the value that it has. -/
theorem perform_local? {operation : Operation α} {value : α} (within : operation.Within fs)
    (spares : ¬ operation.Writes fs j x) (bound : fs.local? j x = some value) :
    (fs.perform operation).2.local? j x = some value := by
  obtain ⟨parent, -, eq⟩ | eq | ⟨i, y, other, inside, writes, eq⟩ :=
    perform_cases back operation within
  · have inside : j < fs.size := size_of_has (by rw [Has, bound]; rfl)
    rw [eq, local?_push, if_neg (Nat.ne_of_lt inside), bound]
  · rw [eq, bound]
  · rw [eq, local?_define _ _ _ _ _ _ inside, if_neg, bound]
    rintro ⟨rfl, rfl⟩
    exact spares writes

theorem Spared.leadsBack {later : Frames α} (spared : Spared j x fs later) : later.LeadsBack := by
  induction spared with
  | start => exact back
  | after _ within _ ih => exact perform_leadsBack ih within

/-- A name of a frame keeps its value until an operation writes it. -/
theorem Spared.local? {later : Frames α} {value : α} (spared : Spared j x fs later)
    (bound : fs.local? j x = some value) : later.local? j x = some value := by
  induction spared with
  | start => exact bound
  | after before within spares ih => exact perform_local? (before.leadsBack back) within spares ih

end

theorem Made.leadsBack (made : Made fs) : fs.LeadsBack := by
  induction made with
  | empty => intro i p link; simp [parent?, Frames.empty] at link
  | after _ within ih => exact perform_leadsBack ih within

/-- A name is read in the frame in which it would be changed. -/
theorem get?_eq_bind (fs : Frames α) (i : FrameId) (x : String) :
    fs.get? i x = (fs.owner? i x).bind fun j => fs.local? j x := by
  unfold get? owner?
  induction fs.chain i with
  | nil => rfl
  | cons j rest ih => cases bound : fs.local? j x <;> simp [bound, ih]

/-- The nearest frame that binds a name stays so where links and names stay. -/
theorem Nearest.keep {fs' : Frames α} (h : fs.Nearest x i j)
    (parent : ∀ i, fs'.parent? i = fs.parent? i) (names : ∀ i, fs'.Has i x ↔ fs.Has i x) :
    fs'.Nearest x i j := by
  induction h with
  | here has => exact .here ((names _).2 has)
  | link lacks link _ ih => exact .link (mt (names _).1 lacks) ((parent _).trans link) ih

section

variable {name : Token} (back : fs.LeadsBack)
include back

theorem target_of_nearest (h : fs.Nearest name.lexeme f j) : fs.target f name = .ok j := by
  rw [target, (owner?_eq_some back).2 h]

theorem read_of_nearest {value : α} (h : fs.Nearest name.lexeme f j)
    (bound : fs.local? j name.lexeme = some value) : fs.read f name = .ok value := by
  rw [read, get?_eq_bind, (owner?_eq_some back).2 h, Option.bind_some, bound]

/-- Where no frame outward binds a name it is neither read nor changed. -/
theorem undefined_of_not_nearest (h : ∀ j, ¬ fs.Nearest name.lexeme f j) :
    fs.read f name = .error (.error ⟨.undefinedVariable, name⟩) ∧
      fs.target f name = .error (.error ⟨.undefinedVariable, name⟩) := by
  have nowhere : fs.owner? f name.lexeme = none :=
    Option.eq_none_iff_forall_ne_some.2 fun j found => h j ((owner?_eq_some back).1 found)
  rw [read, target, get?_eq_bind, nowhere]
  exact ⟨rfl, rfl⟩

end

/-- Frames differ from others in the value of one name of one frame, which had one before.
Whoever comes to that frame first reads the new value, also later, until an operation writes
it again, and nothing else is read otherwise. -/
structure Overwrites (fs : Frames α) (j : FrameId) (x : String) (value : α)
    (fs' : Frames α) : Prop where
  size : fs'.size = fs.size
  parent : ∀ i, fs'.parent? i = fs.parent? i
  names : ∀ i y, fs'.Has i y ↔ fs.Has i y
  here : fs'.local? j x = some value
  elsewhere : ∀ i y, ¬ (i = j ∧ y = x) → fs'.local? i y = fs.local? i y
  seen : ∀ later, Spared j x fs' later → ∀ g name, name.lexeme = x → later.Nearest x g j →
    (later.perform (.get g name)).1 = .ok (.value value)
  unseen : ∀ g name, ¬ (name.lexeme = x ∧ fs.Nearest x g j) →
    (fs'.perform (.get g name)).1 = (fs.perform (.get g name)).1

theorem define_overwrites (back : fs.LeadsBack) (has : fs.Has j x)
    (value : α) : fs.Overwrites j x value (fs.define j x value) := by
  have inside := size_of_has has
  have values (i y) := local?_define fs j i x y value inside
  have links (i) : (fs.define j x value).parent? i = fs.parent? i := parent?_define ..
  have back' : (fs.define j x value).LeadsBack := fun i p link => back ((links i).symm.trans link)
  have names (i y) : (fs.define j x value).Has i y ↔ fs.Has i y := by
    rw [has_define inside]
    exact ⟨fun h => h.elim (fun ⟨same, same'⟩ => same ▸ same' ▸ has) id, .inr⟩
  have here : (fs.define j x value).local? j x = some value := by
    rw [values, if_pos ⟨rfl, rfl⟩]
  refine ⟨size_define .., links, names, here, fun i y other => ?_, ?_, ?_⟩
  · rw [values, if_neg other]
  · rintro later spared g name rfl nearest
    rw [perform, read_of_nearest (spared.leadsBack back') nearest (spared.local? back' here)]
    rfl
  · intro g name other
    by_cases bound : ∃ k, fs.Nearest name.lexeme g k
    · obtain ⟨k, nearest⟩ := bound
      obtain ⟨old, own⟩ := Option.isSome_iff_exists.1 nearest.has
      have own' : (fs.define j x value).local? k name.lexeme = some old := by
        rw [values, if_neg, own]
        rintro ⟨rfl, rfl⟩
        exact other ⟨rfl, nearest⟩
      rw [perform, perform, read_of_nearest back nearest own,
        read_of_nearest back' (nearest.keep links (names · _)) own']
    · have nowhere := not_exists.1 bound
      have nowhere' (k) : ¬ (fs.define j x value).Nearest name.lexeme g k := fun nearest =>
        nowhere k (nearest.keep (fun i => (links i).symm) fun i => (names i _).symm)
      rw [perform, perform, (undefined_of_not_nearest back nowhere).1,
        (undefined_of_not_nearest back' nowhere').1]

/-- From a frame a name is read and changed in the nearest frame outward that binds it, and
is undefined for both where none does. -/
structure FirstMatch (fs : Frames α) (f : FrameId) (name : Token) : Prop where
  unique : ∀ {j k}, fs.Nearest name.lexeme f j → fs.Nearest name.lexeme f k → j = k
  get : ∀ {j}, fs.Nearest name.lexeme f j → ∃ value, fs.local? j name.lexeme = some value ∧
    fs.perform (.get f name) = (.ok (.value value), fs)
  assign : ∀ {j}, fs.Nearest name.lexeme f j → ∀ value, ∃ fs',
    fs.perform (.assign f name value) = (.ok .nothing, fs') ∧
      fs.Overwrites j name.lexeme value fs'
  undefined : (∀ j, ¬ fs.Nearest name.lexeme f j) →
    fs.perform (.get f name) = (.error (.error ⟨.undefinedVariable, name⟩), fs) ∧
      ∀ value, fs.perform (.assign f name value) =
        (.error (.error ⟨.undefinedVariable, name⟩), fs)

/-- From the frame at a distance a name is read and changed as from that frame; a change gives
the new value. Beyond the depth of a frame there is no frame at a distance. -/
structure AtDistance (fs : Frames α) (f : FrameId) (d : Nat) (name : Token) : Prop where
  unique : ∀ {j k}, fs.Outward d f j → fs.Outward d f k → j = k
  within : ∀ {j}, fs.Outward d f j → fs.perform (.ancestor f d) = (.ok (.frame j), fs) ∧
    fs.perform (.getAt f d name) = fs.perform (.get j name) ∧
      ∀ value, fs.perform (.assignAt f d name value) =
        ((fs.perform (.assign j name value)).1.map fun _ => .value value,
          (fs.perform (.assign j name value)).2)
  beyond : ∃ n, fs.IsDepth f n ∧ ((∃ j, fs.Outward d f j) ↔ d ≤ n) ∧ (n < d →
    fs.perform (.ancestor f d) = (.error (.fault (.noFrame d)), fs) ∧
      fs.perform (.getAt f d name) = (.error (.fault (.noFrame d)), fs) ∧
      ∀ value, fs.perform (.assignAt f d name value) = (.error (.fault (.noFrame d)), fs))

theorem Made.firstMatch (made : Made fs) (f : FrameId) (name : Token) : fs.FirstMatch f name where
  unique := Nearest.unique
  get {j} nearest := by
    obtain ⟨value, bound⟩ := Option.isSome_iff_exists.1 nearest.has
    refine ⟨value, bound, ?_⟩
    rw [perform, read_of_nearest made.leadsBack nearest bound]
    rfl
  assign {j} nearest value := by
    refine ⟨_, ?_, define_overwrites made.leadsBack nearest.has value⟩
    rw [perform, write, target_of_nearest made.leadsBack nearest]
    rfl
  undefined nowhere := by
    obtain ⟨read, target⟩ := undefined_of_not_nearest made.leadsBack nowhere
    refine ⟨by rw [perform, read]; rfl, fun value => ?_⟩
    rw [perform, write, target]
    rfl

theorem Made.atDistance (made : Made fs) (f : FrameId) (d : Nat) (name : Token) :
    fs.AtDistance f d name where
  unique := Outward.unique
  within {j} outward := by
    have there : fs.ancestor f d = .ok j := by
      rw [ancestor, (ancestor?_eq_some made.leadsBack).2 outward]
    refine ⟨by rw [perform, there]; rfl, ?_, fun value => ?_⟩
    · rw [perform, perform, readAt, there]
      rfl
    · rw [perform, perform, writeAt_eq, there]
      show fs.changed (.value value) (fs.write j name value) = _
      cases fs.write j name value <;> rfl
  beyond := by
    obtain ⟨n, isDepth⟩ := exists_isDepth made.leadsBack f
    refine ⟨n, isDepth, isDepth.exists_outward, fun far => ?_⟩
    have nowhere : fs.ancestor? f d = none :=
      Option.eq_none_iff_forall_ne_some.2 fun j found => Nat.not_le.2 far
        (isDepth.exists_outward.1 ⟨j, (ancestor?_eq_some made.leadsBack).1 found⟩)
    have fault : fs.ancestor f d = .error (.fault (.noFrame d)) := by rw [ancestor, nowhere]
    refine ⟨?_, ?_, fun value => ?_⟩
    · rw [perform, fault]
      rfl
    · rw [perform, readAt, fault]
      rfl
    · rw [perform, writeAt_eq, fault]
      rfl

/-- An operation that fails leaves the frames as they were. -/
theorem perform_of_error {operation : Operation α} {stop : Stop}
    (failed : (fs.perform operation).1 = .error stop) : (fs.perform operation).2 = fs := by
  have unchanged {result : Result α} {after : Except Stop (Frames α)}
      (failed : (fs.changed result after).1 = .error stop) : (fs.changed result after).2 = fs := by
    cases after with
    | ok after => cases failed
    | error stop => rfl
  cases operation with
  | make | define => cases failed
  | assign | assignAt => exact unchanged failed
  | get | getAt | ancestor => rfl

/-- Frames that operations have made are maps that share their outer parts. From every frame
and for every name, reading and changing act on the nearest frame outward that binds the name,
or fail where there is none, and what is changed is read from all frames that have the same
nearest one until it is changed again; at a distance they act as from the frame there, if
there is one; and whatever fails changes nothing. -/
theorem frames_are_shared_maps (made : Made fs) (f : FrameId) (name : Token) (d : Nat) :
    fs.FirstMatch f name ∧ fs.AtDistance f d name ∧ ∀ operation stop,
      (fs.perform operation).1 = .error stop → (fs.perform operation).2 = fs :=
  ⟨made.firstMatch f name, made.atDistance f d name, fun _ _ => perform_of_error⟩

namespace Shadowing

/-- A name. -/
def name : Token := ⟨.identifier, "a", .nil, 1⟩

/-- Two frames inside one that binds the name; one of them has changed it and then bound it
again. -/
def frames : Frames Nat :=
  (((((Frames.empty.perform (.make none)).2.perform (.define 0 "a" 1)).2.perform
    (.make (some 0))).2.perform (.make (some 0))).2.perform (.assign 1 name 2)).2.perform
      (.define 1 "a" 3) |>.2

theorem made : Made frames :=
  .after (.after (.after (.after (.after (.after .empty (by decide)) (by decide)) (by decide))
    (by decide)) (by decide)) (by decide +kernel)

theorem frames_are_shared_maps_beside :
    Made frames ∧ frames.FirstMatch 2 name ∧ frames.AtDistance 2 1 name ∧
      ∀ operation stop, (frames.perform operation).1 = .error stop →
        (frames.perform operation).2 = frames :=
  ⟨made, frames_are_shared_maps made 2 name 1⟩

end Shadowing

end TreeWalk.Frames
