import TreeWalk.Proofs.Run.Heaps

/-!
# Links that lead back

A frame is linked to the one around it and a class to the one it inherits from. On a heap
that runs have made every link leads to something older. So the links of a frame end at the
global one, those of a class end too, and every search along them ends.

## Implementation notes

The functions of the heap stop at a link that does not lead to something older. `Links` and
`Search` know of no such stop: they tell what comes of following links wherever they lead,
and are not defined where that has no end.
-/

namespace TreeWalk

/-- Links lead from a number along a path, at the end of which there is no link. -/
inductive Links (next : Nat → Option Nat) : Nat → List Nat → Prop
  | stop {i} : next i = none → Links next i [i]
  | on {i j path} : next i = some j → Links next j path → Links next i (i :: path)

/-- A search along links ends with the first thing that there is on the way, or with nothing
where there is no link. -/
inductive Search {α : Type} (next : Nat → Option Nat) (here : Nat → Option α) :
    Nat → Option α → Prop
  | found {i a} : here i = some a → Search next here i (some a)
  | nowhere {i} : here i = none → next i = none → Search next here i none
  | on {i j result} : here i = none → next i = some j → Search next here j result →
      Search next here i result

namespace Links

variable {α : Type} {next : Nat → Option Nat} {i : Nat} {path : List Nat}

/-- Along links that end a search ends. -/
theorem search (h : Links next i path) (here : Nat → Option α) :
    Search next here i (path.findSome? here) := by
  induction h with
  | @stop i last =>
      cases found : here i with
      | some a => simpa [found] using Search.found found
      | none => simpa [found] using Search.nowhere found last
  | @on i j path link _ ih =>
      cases found : here i with
      | some a => simpa [found] using Search.found found
      | none => simpa [found] using Search.on found link ih

/-- Links that lead to smaller numbers never come to a number again. -/
theorem nodup (h : Links next i path) (back : ∀ {i j}, next i = some j → j < i) :
    path.Nodup ∧ ∀ j ∈ path, j ≤ i := by
  induction h with
  | stop => simp
  | @on i j path link _ ih =>
      obtain ⟨once, below⟩ := ih
      have earlier : ∀ k ∈ path, k < i := fun k among =>
        Nat.lt_of_le_of_lt (below k among) (back link)
      refine ⟨List.nodup_cons.2 ⟨fun again => Nat.lt_irrefl i (earlier i again), once⟩, ?_⟩
      rintro k (_ | ⟨_, among⟩)
      · exact Nat.le_refl i
      · exact Nat.le_of_lt (earlier k among)

end Links

namespace Heap

/-- A class leads back to an older one and has methods that are on the heap. -/
structure LeadsBack (h : Heap) (c : ClassId) (record : ClassRecord) : Prop where
  superclass : ∀ {d}, record.superclass = some d → d < c
  methods : ∀ {name method}, record.methods.get? name = some method → method < h.closures.size

/-- An object is of a class on the heap and holds nothing but what is there. -/
structure Grasps (h : Heap) (record : ObjectRecord) : Prop where
  isOf : record.classId < h.classes.size
  fields : ∀ {x v}, record.fields.get? x = some v → h.Refers v

/-- Every link leads to something older, and nothing that the heap holds is missing. -/
structure Linked (h : Heap) : Prop where
  nonempty : 0 < h.frames.size
  parent : ∀ {i p}, h.frames.parent? i = some p → p < i
  outermost : ∀ {i}, i < h.frames.size → (h.frames.parent? i = none ↔ i = Machine.globals)
  locals : ∀ {i x v}, h.frames.local? i x = some v → h.Refers v
  closures : ∀ {id : ClosureId} {closure}, h.closures[id]? = some closure →
    closure.frame < h.frames.size
  classes : ∀ {c : ClassId} {record}, h.classes[c]? = some record → h.LeadsBack c record
  objects : ∀ {id : ObjectId} {record}, h.objects[id]? = some record → h.Grasps record

variable {h h' : Heap} {New : FrameId → Prop}

theorem LeadsBack.later {c : ClassId} {record : ClassRecord} (leads : h.LeadsBack c record)
    (grown : h.Extends New h') : h'.LeadsBack c record :=
  ⟨leads.superclass, fun found => Nat.lt_of_lt_of_le (leads.methods found) grown.closures_size⟩

theorem Grasps.later {record : ObjectRecord} (grasps : h.Grasps record)
    (grown : h.Extends New h') : h'.Grasps record :=
  ⟨Nat.lt_of_lt_of_le grasps.isOf grown.classes_size,
    fun found => (grasps.fields found).later grown⟩

/-- A heap that has grown out of a linked one is linked if what is new on it is. -/
theorem Linked.later (linked : h.Linked) (grown : h.Extends New h')
    (frames : ∀ {i}, h.frames.size ≤ i → i < h'.frames.size →
      ∃ p < i, h'.frames.parent? i = some p)
    (locals : ∀ {i x v}, h'.frames.local? i x = some v →
      h.frames.local? i x = some v ∨ h'.Refers v)
    (closures : ∀ {id : ClosureId} {closure}, h'.closures[id]? = some closure →
      h.closures[id]? = some closure ∨ closure.frame < h'.frames.size)
    (classes : ∀ {c : ClassId} {record}, h'.classes[c]? = some record →
      h.classes[c]? = some record ∨ h'.LeadsBack c record)
    (objects : ∀ {id : ObjectId} {record}, h'.objects[id]? = some record →
      h.objects[id]? = some record ∨ h'.Grasps record) : h'.Linked where
  nonempty := Nat.lt_of_lt_of_le linked.nonempty grown.size
  parent := by
    intro i p link
    obtain old | new := Nat.lt_or_ge i h.frames.size
    · rw [grown.parent i old] at link
      exact linked.parent link
    · obtain ⟨_, smaller, same⟩ := frames new (Frames.size_of_parent link)
      cases same.symm.trans link
      exact smaller
  outermost := by
    intro i inside
    obtain old | new := Nat.lt_or_ge i h.frames.size
    · rw [grown.parent i old]
      exact linked.outermost old
    · obtain ⟨p, -, link⟩ := frames new inside
      have other : i ≠ Machine.globals := Nat.ne_of_gt (Nat.lt_of_lt_of_le linked.nonempty new)
      simp [link, other]
  locals bound := (locals bound).elim (fun old => (linked.locals old).later grown) id
  closures bound := (closures bound).elim
    (fun old => Nat.lt_of_lt_of_le (linked.closures old) grown.size) id
  classes bound := (classes bound).elim (fun old => (linked.classes old).later grown) id
  objects bound := (objects bound).elim (fun old => (linked.objects old).later grown) id

/-- A new frame lies inside of one that is there. -/
theorem Linked.push {p : FrameId} (linked : h.Linked) (inside : p < h.frames.size) :
    Linked { h with frames := h.frames.push (some p) } := by
  have grown : h.Extends (fun _ => False) { h with frames := h.frames.push (some p) } :=
    .push h _
  apply linked.later grown
  · intro i new within
    rw [Frames.size_push] at within
    obtain rfl : i = h.frames.size := Nat.le_antisymm (Nat.le_of_lt_succ within) new
    exact ⟨p, inside, by rw [Frames.parent?_push, if_pos rfl]⟩
  · intro i x v bound
    rw [Frames.local?_push] at bound
    split at bound
    · cases bound
    · exact .inl bound
  all_goals exact .inl

theorem Linked.define {v : Value} (linked : h.Linked) (refers : h.Refers v) (i : FrameId)
    (x : String) : Linked { h with frames := h.frames.define i x v } := by
  have grown : h.Extends (· = i) { h with frames := h.frames.define i x v } :=
    .define h v (.inl rfl)
  apply linked.later grown
  · intro j new within
    rw [Frames.size_define] at within
    exact absurd within (Nat.not_lt.2 new)
  · intro j y w bound
    by_cases inside : i < h.frames.size
    · rw [Frames.local?_define _ _ _ _ _ _ inside] at bound
      split at bound
      · cases bound
        exact .inr (refers.later grown)
      · exact .inl bound
    · rw [Frames.define_outside inside] at bound
      exact .inl bound
  all_goals exact .inl

theorem some_of_push {α : Type} {xs : Array α} {i : Nat} {a b : α}
    (found : (xs.push a)[i]? = some b) : xs[i]? = some b ∨ i = xs.size ∧ b = a := by
  rw [Array.getElem?_push] at found
  split at found
  next last =>
    cases found
    exact .inr ⟨last, rfl⟩
  next => exact .inl found

theorem Linked.pushClosure {closure : Closure} (linked : h.Linked)
    (inside : closure.frame < h.frames.size) :
    Linked { h with closures := h.closures.push closure } := by
  have grown : h.Extends (fun _ => False) { h with closures := h.closures.push closure } :=
    .pushClosure h _
  apply linked.later grown
  case closures =>
    intro id other bound
    obtain old | ⟨-, rfl⟩ := some_of_push bound
    · exact .inl old
    · exact .inr inside
  case frames => exact fun new within => absurd within (Nat.not_lt.2 new)
  all_goals exact .inl

theorem Linked.pushClass {record : ClassRecord} (linked : h.Linked)
    (leads : h.LeadsBack h.classes.size record) :
    Linked { h with classes := h.classes.push record } := by
  have grown : h.Extends (fun _ => False) { h with classes := h.classes.push record } :=
    .pushClass h _
  apply linked.later grown
  case classes =>
    intro c other bound
    obtain old | ⟨rfl, rfl⟩ := some_of_push bound
    · exact .inl old
    · exact .inr (leads.later grown)
  case frames => exact fun new within => absurd within (Nat.not_lt.2 new)
  all_goals exact .inl

theorem Linked.pushObject {c : ClassId} (linked : h.Linked) (inside : c < h.classes.size) :
    Linked { h with objects := h.objects.push ⟨c, .empty⟩ } := by
  have grown : h.Extends (fun _ => False) { h with objects := h.objects.push ⟨c, .empty⟩ } :=
    .pushObject h _
  apply linked.later grown
  case objects =>
    intro id other bound
    obtain old | ⟨-, rfl⟩ := some_of_push bound
    · exact .inl old
    · exact .inr ⟨inside, nofun⟩
  case frames => exact fun new within => absurd within (Nat.not_lt.2 new)
  all_goals exact .inl

theorem Linked.setField {v : Value} (linked : h.Linked) (refers : h.Refers v) (id : ObjectId)
    (x : String) : (h.setField id x v).Linked := by
  have grown : h.Extends (fun _ => False) (h.setField id x v) := .modifyObject h id _
  apply linked.later grown
  case objects =>
    intro other record bound
    simp only [Heap.setField, Array.getElem?_modify] at bound
    split at bound
    next =>
      obtain ⟨old, before, rfl⟩ := Option.map_eq_some_iff.1 bound
      have grasps := (linked.objects before).later grown
      refine .inr ⟨grasps.isOf, fun {y w} found => ?_⟩
      rw [Bindings.get?_put] at found
      split at found
      · cases found
        exact refers.later grown
      · exact grasps.fields found
    next => exact .inl bound
  case frames => exact fun new within => absurd within (Nat.not_lt.2 new)
  all_goals exact .inl

/-- Following links ends from every frame and every class, and so does every search along
them, with what the functions of the heap say. -/
structure Grounded (h : Heap) : Prop where
  frames : ∀ {i}, i < h.frames.size → Links h.frames.parent? i (h.frames.chain i) ∧
    (h.frames.chain i).Nodup ∧ (h.frames.chain i).getLast? = some Machine.globals
  classes : ∀ c, Links h.superclass? c (h.lineage c) ∧ (h.lineage c).Nodup
  read : ∀ {i}, i < h.frames.size → ∀ x,
    Search h.frames.parent? (h.frames.local? · x) i (h.frames.get? i x)
  write : ∀ {i}, i < h.frames.size → ∀ x, Search h.frames.parent?
    (Option.guard fun j => (h.frames.local? j x).isSome) i (h.frames.owner? i x)
  method : ∀ c name, Search h.superclass? (h.ownMethod? · name) c (h.method? c name)

theorem Linked.chain_links (linked : h.Linked) (i : FrameId) :
    Links h.frames.parent? i (h.frames.chain i) := by
  induction i using Nat.strongRecOn with
  | ind i ih =>
      cases link : h.frames.parent? i with
      | none =>
          rw [Frames.chain_of_none link]
          exact .stop link
      | some p =>
          have smaller := linked.parent link
          rw [Frames.chain_of_some link smaller]
          exact .on link (ih p smaller)

theorem Linked.chain_ends (linked : h.Linked) {i : FrameId} (inside : i < h.frames.size) :
    (h.frames.chain i).getLast? = some Machine.globals := by
  induction i using Nat.strongRecOn with
  | ind i ih =>
      cases link : h.frames.parent? i with
      | none =>
          rw [Frames.chain_of_none link, (linked.outermost inside).1 link]
          rfl
      | some p =>
          have smaller := linked.parent link
          obtain ⟨rest, cut⟩ := Frames.chain_head h.frames p
          rw [Frames.chain_of_some link smaller, cut, List.getLast?_cons_cons, ← cut]
          exact ih p smaller (Nat.lt_trans smaller inside)

theorem Linked.superclass_smaller (linked : h.Linked) {c d : ClassId}
    (link : h.superclass? c = some d) : d < c := by
  obtain ⟨record, bound, parent⟩ := Option.bind_eq_some_iff.1 link
  exact (linked.classes bound).superclass parent

theorem Linked.lineage_links (linked : h.Linked) (c : ClassId) :
    Links h.superclass? c (h.lineage c) := by
  induction c using Nat.strongRecOn with
  | ind c ih =>
      rw [lineage]
      split
      next last => exact .stop last
      next d link =>
        have smaller := linked.superclass_smaller link
        rw [if_pos smaller]
        exact .on link (ih d smaller)

theorem Linked.grounded (linked : h.Linked) : h.Grounded where
  frames {i} inside :=
    ⟨linked.chain_links i, ((linked.chain_links i).nodup linked.parent).1, linked.chain_ends inside⟩
  classes c :=
    ⟨linked.lineage_links c, ((linked.lineage_links c).nodup linked.superclass_smaller).1⟩
  read {i} _ x := (linked.chain_links i).search _
  write {i} _ x := by
    have search := (linked.chain_links i).search
      (Option.guard fun j => (h.frames.local? j x).isSome)
    rwa [List.findSome?_guard] at search
  method c name := (linked.lineage_links c).search _

theorem Linked.method_inside (linked : h.Linked) {c : ClassId} {name : String}
    {method : ClosureId} (found : h.method? c name = some method) : method < h.closures.size := by
  obtain ⟨d, -, own⟩ := List.exists_of_findSome?_eq_some found
  obtain ⟨record, bound, declared⟩ := Option.bind_eq_some_iff.1 own
  exact (linked.classes bound).methods declared

end Heap

end TreeWalk
