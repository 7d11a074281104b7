import TreeWalk.Proofs.Loops.Thinning
import TreeWalk.Proofs.Run.Keeping

/-!
# Frames without those of passes

An erasure of the frames of a machine leaves out those in which passes of counting loops run.
They bind nothing, and so a variable that is looked up from a frame outward is the same without
them, if only the distance is thinned by them.

## Implementation notes

A frame that is left out has the place of the frame around it, from where everything is found
that is found from itself. The frames that stay are numbered in the same order.
-/

namespace TreeWalk

/-- Which frames of a machine are left out and where the others are found then, and which closures
are methods that are not bound. -/
structure Erasure where
  /-- The frame that stands for a frame. -/
  place : FrameId → FrameId
  /-- Whether a frame is that of a pass. -/
  isPass : FrameId → Bool
  /-- Whether a closure is a method in the table of a class. -/
  isMethod : ClosureId → Bool

namespace Erasure

/-- Which of the frames from one outward are those of passes. -/
def shape (E : Erasure) (fs : Frames Value) (i : FrameId) : Shape := (fs.chain i).map E.isPass

/-- The erasure with a further frame. -/
def withFrame (E : Erasure) (i j : FrameId) (isPass : Bool) : Erasure :=
  { E with place := Function.update E.place i j, isPass := Function.update E.isPass i isPass }

variable {i j k : FrameId} {isPass : Bool}

theorem place_new (E : Erasure) : (E.withFrame i j isPass).place i = j :=
  Function.update_self ..

theorem isPass_new (E : Erasure) : (E.withFrame i j isPass).isPass i = isPass :=
  Function.update_self ..

theorem place_old (E : Erasure) (other : k ≠ i) : (E.withFrame i j isPass).place k = E.place k :=
  Function.update_of_ne other ..

theorem isPass_old (E : Erasure) (other : k ≠ i) : (E.withFrame i j isPass).isPass k = E.isPass k :=
  Function.update_of_ne other ..

/-- Frames without those that an erasure leaves out. -/
structure Erases (E : Erasure) (fs gs : Frames Value) : Prop where
  linked : ∀ {i p}, fs.parent? i = some p → p < i
  inside : ∀ {i}, i < fs.size → E.place i < gs.size
  later : ∀ {i j}, j < i → i < fs.size → E.isPass i = false → E.place j < E.place i
  parent : ∀ {i}, i < fs.size → E.isPass i = false →
    gs.parent? (E.place i) = (fs.parent? i).map E.place
  same : ∀ {i}, i < fs.size → E.isPass i = false → ∀ x, gs.local? (E.place i) x = fs.local? i x
  around : ∀ {i}, i < fs.size → E.isPass i = true →
    ∃ p, fs.parent? i = some p ∧ E.place i = E.place p
  empty : ∀ {i}, i < fs.size → E.isPass i = true → ∀ x, fs.local? i x = none
  onto : ∀ {j}, j < gs.size → ∃ i < fs.size, E.isPass i = false ∧ E.place i = j

namespace Erases

variable {E : Erasure} {fs gs : Frames Value} {i j p : FrameId} {x : String} {v : Value}

/-- The chain from the place of a frame is that of the frame without those of passes. -/
theorem chain (h : E.Erases fs gs) (inside : i < fs.size) :
    gs.chain (E.place i) = ((fs.chain i).filter fun j => !E.isPass j).map E.place := by
  induction i using Nat.strongRecOn with
  | ind i ih =>
      cases pass : E.isPass i with
      | true =>
          obtain ⟨p, link, same⟩ := h.around inside pass
          have smaller := h.linked link
          rw [same, Frames.chain_of_some link smaller, List.filter_cons_of_neg (by simp [pass])]
          exact ih p smaller (Nat.lt_trans smaller inside)
      | false =>
          have linked := h.parent inside pass
          cases link : fs.parent? i with
          | none =>
              rw [link] at linked
              rw [Frames.chain_of_none link, Frames.chain_of_none linked]
              simp [pass]
          | some p =>
              rw [link] at linked
              have smaller := h.linked link
              rw [Frames.chain_of_some link smaller,
                Frames.chain_of_some linked (h.later smaller inside pass),
                ih p smaller (Nat.lt_trans smaller inside),
                List.filter_cons_of_pos (by simp [pass]), List.map_cons]

theorem inside_chain (inside : i < fs.size) : ∀ j ∈ fs.chain i, j < fs.size :=
  fun _ among => Nat.lt_of_le_of_lt (Frames.le_of_mem_chain among) inside

/-- What is found from a frame outward is found from its place. -/
theorem get? (h : E.Erases fs gs) (inside : i < fs.size) (x : String) :
    gs.get? (E.place i) x = fs.get? i x := by
  rw [Frames.get?, Frames.get?, h.chain inside]
  have all := inside_chain inside
  generalize fs.chain i = row at all
  induction row with
  | nil => rfl
  | cons j rest ih =>
      have here := all j List.mem_cons_self
      have others := ih fun k among => all k (List.mem_cons_of_mem _ among)
      cases pass : E.isPass j with
      | true =>
          rw [List.filter_cons_of_neg (by simp [pass]), List.findSome?_cons, h.empty here pass]
          exact others
      | false =>
          rw [List.filter_cons_of_pos (by simp [pass]), List.map_cons, List.findSome?_cons,
            List.findSome?_cons, h.same here pass, others]

/-- The frame that is found from a place is the place of the one that is found from the frame, and
this is not that of a pass. -/
theorem owner? (h : E.Erases fs gs) (inside : i < fs.size) (x : String) :
    gs.owner? (E.place i) x = (fs.owner? i x).map E.place ∧
      ∀ j ∈ fs.owner? i x, j < fs.size ∧ E.isPass j = false := by
  rw [Frames.owner?, Frames.owner?, h.chain inside]
  have all := inside_chain inside
  generalize fs.chain i = row at all
  induction row with
  | nil =>
      refine ⟨rfl, fun j among => ?_⟩
      cases among
  | cons j rest ih =>
      have here := all j List.mem_cons_self
      obtain ⟨others, kept⟩ := ih fun k among => all k (List.mem_cons_of_mem _ among)
      cases pass : E.isPass j with
      | true =>
          rw [List.filter_cons_of_neg (by simp [pass]), List.find?_cons, h.empty here pass]
          exact ⟨others, kept⟩
      | false =>
          rw [List.filter_cons_of_pos (by simp [pass]), List.map_cons, List.find?_cons,
            List.find?_cons, h.same here pass]
          cases fs.local? j x with
          | none => exact ⟨others, kept⟩
          | some => exact ⟨rfl, fun k same => by cases same; exact ⟨here, pass⟩⟩

theorem shape_of_some (link : fs.parent? i = some p) (smaller : p < i) :
    E.shape fs i = E.isPass i :: E.shape fs p := by
  rw [shape, Frames.chain_of_some link smaller]
  rfl

/-- The frame at a thinned distance from a place is the place of the frame at the distance. -/
theorem ancestor? {distance : Nat} (h : E.Erases fs gs) (inside : i < fs.size)
    (link : fs.ancestor? i distance = some j) :
    j < fs.size ∧
      gs.ancestor? (E.place i) ((E.shape fs i).thin distance) = some (E.place j) := by
  induction distance generalizing i with
  | zero =>
      obtain ⟨rest, cut⟩ := Frames.chain_head fs i
      obtain ⟨rest', cut'⟩ := Frames.chain_head gs (E.place i)
      simp only [Frames.ancestor?, cut, List.getElem?_cons_zero, Option.some.injEq] at link
      subst link
      refine ⟨inside, ?_⟩
      rw [Shape.thin, Frames.ancestor?, cut', List.getElem?_cons_zero]
  | succ distance ih =>
      cases outward : fs.parent? i with
      | none => simp [Frames.ancestor?, Frames.chain_of_none outward] at link
      | some p =>
          have smaller := h.linked outward
          rw [Frames.ancestor?, Frames.chain_of_some outward smaller,
            List.getElem?_cons_succ] at link
          obtain ⟨found, led⟩ := ih (Nat.lt_trans smaller inside) link
          refine ⟨found, ?_⟩
          rw [shape_of_some outward smaller]
          cases pass : E.isPass i with
          | true =>
              obtain ⟨q, outward', same⟩ := h.around inside pass
              cases outward.symm.trans outward'
              rw [Shape.thin, same]
              exact led
          | false =>
              have linked := h.parent inside pass
              rw [outward] at linked
              rw [Shape.thin, Frames.ancestor?,
                Frames.chain_of_some linked (h.later smaller inside pass),
                List.getElem?_cons_succ]
              exact led

/-- A name that is bound in a frame that stays is bound in its place. -/
theorem define (h : E.Erases fs gs) (inside : i < fs.size) (kept : E.isPass i = false) :
    E.Erases (fs.define i x v) (gs.define (E.place i) x v) where
  linked link := h.linked (by rwa [Frames.parent?_define] at link)
  inside within := by
    rw [Frames.size_define] at within ⊢
    exact h.inside within
  later earlier within pass := h.later earlier (by rwa [Frames.size_define] at within) pass
  parent within pass := by
    rw [Frames.parent?_define, Frames.parent?_define]
    exact h.parent (by rwa [Frames.size_define] at within) pass
  same := by
    intro j within pass y
    rw [Frames.size_define] at within
    rw [Frames.local?_define _ _ _ _ _ _ (h.inside inside), Frames.local?_define _ _ _ _ _ _ inside,
      h.same within pass]
    have apart : E.place j = E.place i ↔ j = i := by
      constructor
      · intro equal
        obtain earlier | same | later := Nat.lt_trichotomy j i
        · exact absurd equal (Nat.ne_of_lt (h.later earlier inside kept))
        · exact same
        · exact absurd equal (Nat.ne_of_gt (h.later later within pass))
      · exact congrArg E.place
    simp only [apart]
  around within pass := by
    rw [Frames.parent?_define]
    exact h.around (by rwa [Frames.size_define] at within) pass
  empty := by
    intro j within pass y
    rw [Frames.size_define] at within
    have other : j ≠ i := by
      rintro rfl
      rw [kept] at pass
      cases pass
    rw [Frames.local?_define _ _ _ _ _ _ inside, if_neg fun both => other both.1]
    exact h.empty within pass y
  onto within := by
    rw [Frames.size_define] at within ⊢
    exact h.onto within

theorem eq_or_lt_of_push (within : i < (fs.push (some p)).size) : i = fs.size ∨ i < fs.size := by
  rw [Frames.size_push] at within
  exact (Nat.lt_succ_iff_lt_or_eq.1 within).symm

/-- A new frame is that of a pass, with the place of the frame around it, or it has a new place. -/
theorem grow {gs' : Frames Value} {isPass : Bool} (h : E.Erases fs gs) (inside : p < fs.size)
    (size : gs.size ≤ gs'.size) (parents : ∀ k < gs.size, gs'.parent? k = gs.parent? k)
    (locals : ∀ k < gs.size, ∀ x, gs'.local? k x = gs.local? k x) (within : j < gs'.size)
    (kept : isPass = false → j = gs.size ∧ gs'.parent? j = some (E.place p) ∧
      ∀ x, gs'.local? j x = none)
    (pass : isPass = true → j = E.place p)
    (only : ∀ k < gs'.size, k < gs.size ∨ isPass = false ∧ k = j) :
    (E.withFrame fs.size j isPass).Erases (fs.push (some p)) gs' where
  linked := by
    intro i q link
    rw [Frames.parent?_push] at link
    split at link
    next same =>
      cases link
      rwa [same]
    next => exact h.linked link
  inside := by
    intro i among
    obtain rfl | old := eq_or_lt_of_push among
    · rwa [place_new]
    · rw [place_old E (Nat.ne_of_lt old)]
      exact Nat.lt_of_lt_of_le (h.inside old) size
  later := by
    intro i k earlier among isKept
    obtain rfl | old := eq_or_lt_of_push among
    · rw [isPass_new] at isKept
      rw [place_new, place_old E (Nat.ne_of_lt earlier), (kept isKept).1]
      exact h.inside earlier
    · rw [isPass_old E (Nat.ne_of_lt old)] at isKept
      rw [place_old E (Nat.ne_of_lt old), place_old E (Nat.ne_of_lt (Nat.lt_trans earlier old))]
      exact h.later earlier old isKept
  parent := by
    intro i among isKept
    rw [Frames.parent?_push]
    obtain rfl | old := eq_or_lt_of_push among
    · rw [isPass_new] at isKept
      rw [place_new, if_pos rfl, Option.map_some, place_old E (Nat.ne_of_lt inside),
        (kept isKept).2.1]
    · rw [isPass_old E (Nat.ne_of_lt old)] at isKept
      rw [place_old E (Nat.ne_of_lt old), if_neg (Nat.ne_of_lt old), parents _ (h.inside old),
        h.parent old isKept]
      cases link : fs.parent? i with
      | none => rfl
      | some q =>
          rw [Option.map_some, Option.map_some,
            place_old E (Nat.ne_of_lt (Nat.lt_trans (h.linked link) old))]
  same := by
    intro i among isKept x
    rw [Frames.local?_push]
    obtain rfl | old := eq_or_lt_of_push among
    · rw [isPass_new] at isKept
      rw [place_new, if_pos rfl, (kept isKept).2.2]
    · rw [isPass_old E (Nat.ne_of_lt old)] at isKept
      rw [place_old E (Nat.ne_of_lt old), if_neg (Nat.ne_of_lt old), locals _ (h.inside old),
        h.same old isKept]
  around := by
    intro i among isPass
    rw [Frames.parent?_push]
    obtain rfl | old := eq_or_lt_of_push among
    · rw [isPass_new] at isPass
      refine ⟨p, if_pos rfl, ?_⟩
      rw [place_new, place_old E (Nat.ne_of_lt inside), pass isPass]
    · rw [isPass_old E (Nat.ne_of_lt old)] at isPass
      obtain ⟨q, link, same⟩ := h.around old isPass
      refine ⟨q, (if_neg (Nat.ne_of_lt old)).trans link, ?_⟩
      rw [place_old E (Nat.ne_of_lt old),
        place_old E (Nat.ne_of_lt (Nat.lt_trans (h.linked link) old)), same]
  empty := by
    intro i among isPass x
    rw [Frames.local?_push]
    obtain rfl | old := eq_or_lt_of_push among
    · exact if_pos rfl
    · rw [isPass_old E (Nat.ne_of_lt old)] at isPass
      rw [if_neg (Nat.ne_of_lt old)]
      exact h.empty old isPass x
  onto := by
    intro k among
    rw [Frames.size_push]
    obtain old | ⟨isKept, rfl⟩ := only k among
    · obtain ⟨i, found, isKept, same⟩ := h.onto old
      refine ⟨i, Nat.lt_succ_of_lt found, ?_, ?_⟩
      · rw [isPass_old E (Nat.ne_of_lt found), isKept]
      · rw [place_old E (Nat.ne_of_lt found), same]
    · exact ⟨fs.size, Nat.lt_succ_self _, (isPass_new E).trans isKept, place_new E⟩

/-- A new frame has a new place. -/
theorem push (h : E.Erases fs gs) (inside : p < fs.size) :
    (E.withFrame fs.size gs.size false).Erases (fs.push (some p)) (gs.push (some (E.place p))) := by
  apply h.grow inside
  case size => simp
  case within => simp
  case parents =>
    intro k old
    rw [Frames.parent?_push, if_neg (Nat.ne_of_lt old)]
  case locals =>
    intro k old x
    rw [Frames.local?_push, if_neg (Nat.ne_of_lt old)]
  case kept =>
    intro _
    refine ⟨rfl, ?_, fun x => ?_⟩
    · rw [Frames.parent?_push, if_pos rfl]
    · rw [Frames.local?_push, if_pos rfl]
  case pass => nofun
  case only =>
    intro k among
    exact (eq_or_lt_of_push among).symm.imp id fun new => ⟨rfl, new⟩

/-- The frame of a pass has the place of the frame around it. -/
theorem pushPass (h : E.Erases fs gs) (inside : p < fs.size) :
    (E.withFrame fs.size (E.place p) true).Erases (fs.push (some p)) gs := by
  apply h.grow inside (Nat.le_refl _) (fun _ _ => rfl) (fun _ _ _ => rfl) (h.inside inside)
  case kept => nofun
  case pass => exact fun _ => rfl
  case only => exact fun k among => .inl among

end Erases

end Erasure

end TreeWalk
