import TreeWalk.Proofs.Run.Dispatch
import TreeWalk.Proofs.Run.Starting

/-!
# Uses of `this` and `super`

Where the scope rules place a use of `this`, the frame at its distance is the nearest one
that binds `this`, and for a use of `super` it is the one next to that. So both come out
of the home of the code as they come off the machine.
-/

namespace TreeWalk

open Eval Frames Resolve Surroundings

variable {W : Spot → Prop} {P : Pending} {place place' : Surroundings} {reference : Reference}
  {s : Scene}

/-- A name is found at the first view that binds it. -/
theorem findIdx?_view {inner outer : List View} {v : View} {name : String}
    (absent : ∀ u ∈ inner, u name = none) (bound : (v name).isSome) :
    ((inner ++ v :: outer).findIdx? fun u => (u name).isSome) = some inner.length := by
  have skipped : (inner.findIdx? fun u => (u name).isSome) = none :=
    List.findIdx?_eq_none_iff.2 fun u among => by rw [absent u among]; rfl
  simp [List.findIdx?_append, List.findIdx?_cons, skipped, bound]

/-- Inside of a class there is a view that binds `this`, and no view before does. -/
theorem Enclosed.this {context : ClassContext} {views : List View} (h : Enclosed context views)
    (within : context ≠ .outside) : ∃ inner this outer, views = inner ++ this :: outer ∧
      (∀ v ∈ inner, v.IsPlain) ∧ this.BindsThis := by
  cases context with
  | outside => exact absurd rfl within
  | base => exact h
  | derived =>
      obtain ⟨inner, this, super, outer, cut, plain, bindsThis, -⟩ := h
      exact ⟨inner, this, super :: outer, cut, plain, bindsThis⟩

/-- A use of `this` is located at the view that binds it. -/
theorem Placed.this_parts (known : Known W) (h : Placed W (.expr (.this reference)) place place') :
    ∃ inner this outer, place.views = inner ++ this :: outer ∧ (∀ v ∈ inner, v.IsPlain) ∧
      this.BindsThis ∧ reference.name.lexeme = "this" ∧
      reference.distance = some inner.length := by
  obtain ⟨_, inside, made⟩ := h
  cases made with
  | @expr original _ _ _ gives =>
  have sane := known.sane inside
  have parts := Expr.resolve_gives.1 gives
  cases original with
  | this use =>
      obtain ⟨_, within, found, same⟩ := parts
      obtain ⟨-, rfl⟩ := locate_alike found
      cases same
      have word := (sane.proper use.name (by simp [Node.words, Expr.words])).this sane.layered.1
      obtain ⟨inner, this, outer, cut, plain, bindsThis⟩ := sane.enclosed.this within
      refine ⟨inner, this, outer, cut, plain, bindsThis, word, ?_⟩
      rw [distance?_eq, show place.views = _ from cut, word]
      exact findIdx?_view (fun v among => (plain v among).1) (by rw [bindsThis.1]; rfl)
  | _ => grind

/-- A use of `super` is located at the view that binds it, next to the one that binds
`this`. -/
theorem Placed.super_parts {method : Token} (known : Known W)
    (h : Placed W (.expr (.super reference method)) place place') :
    ∃ inner this super outer, place.views = inner ++ this :: super :: outer ∧
      (∀ v ∈ inner, v.IsPlain) ∧ this.BindsThis ∧ super.BindsSuper ∧
      reference.name.lexeme = "super" ∧ reference.distance = some (inner.length + 1) := by
  obtain ⟨_, inside, made⟩ := h
  cases made with
  | @expr original _ _ _ gives =>
  have sane := known.sane inside
  have parts := Expr.resolve_gives.1 gives
  cases original with
  | super use method =>
      obtain ⟨_, derived, found, same⟩ := parts
      obtain ⟨-, rfl⟩ := locate_alike found
      cases same
      have word := (sane.proper use.name (by simp [Node.words, Expr.words])).super sane.layered.1.1
      have enclosed := sane.enclosed
      rw [derived] at enclosed
      obtain ⟨inner, this, super, outer, cut, plain, bindsThis, bindsSuper⟩ := enclosed
      refine ⟨inner, this, super, outer, cut, plain, bindsThis, bindsSuper, word, ?_⟩
      have cut' : place.views = (inner ++ [this]) ++ super :: outer := by simp [cut]
      have absent : ∀ v ∈ inner ++ [this], v "super" = none := by
        intro v among
        obtain among | among := List.mem_append.1 among
        · exact (plain v among).2
        · rw [List.mem_singleton.1 among]
          exact bindsThis.2
      rw [distance?_eq, cut', word, findIdx?_view absent (by rw [bindsSuper.1]; rfl),
        List.length_append, List.length_singleton]
  | _ => grind

/-- The frame of the innermost view that binds `this` is the nearest frame that does. -/
theorem Fits.nearest_this {fs : Frames Value} {inner outer : List View} {this : View} {i : FrameId}
    (fits : Fits P fs (inner ++ this :: outer) i) (plain : ∀ v ∈ inner, v.IsPlain)
    (bindsThis : this.BindsThis) :
    ∃ j value, fs.ancestor? i inner.length = some j ∧ fs.owner? i "this" = some j ∧
      fs.local? j "this" = some value ∧ fs.get? i "this" = some value ∧
      Fits P fs (this :: outer) j := by
  induction inner generalizing i with
  | nil =>
      have has : fs.Has i "this" := by
        obtain has | ⟨ready, -⟩ := fits.1.bound _ _ bindsThis.1
        · exact has
        · cases ready
      obtain ⟨value, bound⟩ := Option.isSome_iff_exists.1 has
      obtain ⟨rest, cut⟩ := chain_head fs i
      refine ⟨i, value, ?_, owner?_of_has has, bound, (get?_of_has has).trans bound, fits⟩
      rw [ancestor?, cut]
      rfl
  | cons v inner ih =>
      obtain ⟨holds, p, link, smaller, outside⟩ := fits
      obtain ⟨j, value, near, owner, bound, seen, fits⟩ :=
        ih outside fun u among => plain u (List.mem_cons_of_mem _ among)
      have absent : ¬fs.Has i "this" := by
        intro has
        have seen := holds.implicit _ not_isPlainName_this has
        rw [(plain v List.mem_cons_self).1] at seen
        cases seen
      have unbound : fs.local? i "this" = none := Option.not_isSome_iff_eq_none.1 absent
      have cut := chain_of_some link smaller
      refine ⟨j, value, ?_, ?_, bound, ?_, fits⟩
      · rw [ancestor?, cut, List.length_cons, List.getElem?_cons_succ]
        exact near
      · rw [owner?, cut, List.find?_cons_of_neg (by simp [unbound])]
        exact owner
      · rw [get?, cut, List.findSome?_cons_of_isNone (by simp [unbound])]
        exact seen

theorem ancestor_next {fs : Frames Value} {i j p : FrameId} {distance : Nat}
    (near : fs.ancestor? i distance = some j) (link : fs.parent? j = some p) (smaller : p < j) :
    fs.ancestor? i (distance + 1) = some p := by
  obtain ⟨rest, cut⟩ := chain_head fs p
  calc fs.ancestor? i (distance + 1) = ((fs.chain i).drop distance)[1]? := by
        rw [ancestor?, List.getElem?_drop]
    _ = (fs.chain j)[1]? := by rw [chain_ancestor near]
    _ = some p := by rw [chain_of_some link smaller, cut]; rfl

/-- The receiver of the code is what its use of `this` is looked up as. -/
theorem this_mirrors (known : Known W) (h : s.Faithful)
    (placed : Placed W (.expr (.this reference)) place place')
    (fits : Fits P s.machine.heap.frames place.views s.machine.current) :
    Mirrors (readReference reference) (do Told.receiverOf (← get).home) s := by
  obtain ⟨inner, this, outer, cut, plain, bindsThis, word, near⟩ := placed.this_parts known
  rw [cut] at fits
  obtain ⟨j, value, link, -, bound, seen, -⟩ := fits.nearest_this plain bindsThis
  rw [← word] at bound
  have own : (readReference reference).Gives s.machine value s.machine :=
    readReference_gives near link bound
  have receiver : s.home.receiver = some value := h.here.receiver.symm.trans seen
  exact (Mirrors.pure h value).congr own (Told.receiverOf_gives receiver)

/-- A use of `super` looks the method up from the superclass of the class around the code
and binds it to the receiver of the code. -/
theorem super_mirrors {method : Token} (known : Known W) (h : s.Faithful)
    (sound : s.machine.heap.Sound W P)
    (placed : Placed W (.expr (.super reference method)) place place')
    (fits : Fits P s.machine.heap.frames place.views s.machine.current) :
    Mirrors (readSuper reference method) (Told.superMethod method) s := by
  obtain ⟨inner, this, super, outer, cut, plain, bindsThis, bindsSuper, word, near⟩ :=
    placed.super_parts known
  rw [cut] at fits
  obtain ⟨j, receiver, link, owner, bound, seen, -, p, parent, smaller, holds, -⟩ :=
    fits.nearest_this plain bindsThis
  have has : s.machine.heap.frames.Has p "super" := by
    obtain has | ⟨ready, -⟩ := holds.bound _ _ bindsSuper.1
    · exact has
    · cases ready
  obtain ⟨value, isSuper⟩ := Option.isSome_iff_exists.1 has
  obtain ⟨id, rfl⟩ := sound.supers isSuper
  have receives : s.home.receiver = some receiver := h.here.receiver.symm.trans seen
  have inherits : s.home.superclass = some id := by
    have around : s.machine.heap.frames.superAround? s.machine.current = some (.classRef id) := by
      obtain ⟨rest, chain⟩ := chain_head s.machine.heap.frames j
      have here : s.machine.heap.frames.ancestor? j 0 = some j := by rw [ancestor?, chain]; rfl
      rw [superAround?, owner, Option.bind_some, ancestor_next here parent smaller,
        Option.bind_some, isSuper]
    obtain ⟨_, found, same⟩ := Option.map_eq_some_iff.1 (h.here.superclass.symm.trans around)
    cases same
    exact found
  have further := ancestor_next link parent smaller
  rw [← word] at isSuper
  have atThis : (inspect fun m => m.frames.ancestor m.current (inner.length + 1 - 1)).Gives
      s.machine j s.machine := by
    have found : s.machine.frames.ancestor? s.machine.current inner.length = some j := link
    simp [EStateM.Gives, EStateM.run, inspect, Frames.ancestor, found]
  refine (method_mirrors h id method receiver).congr ?_ ?_
  · simp only [readSuper, near]
    exact (bind_of_gives (readReference_gives near further isSuper)).trans
      ((bind_of_gives atThis).trans (bind_of_gives (thisOf_gives bound)))
  · simp only [Told.superMethod, get_bind_apply]
    rw [bind_of_gives (Told.receiverOf_gives receives), inherits]

end TreeWalk
