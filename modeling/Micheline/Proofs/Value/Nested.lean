/-
Micheline/Proofs/Value/Nested.lean

Expressions of values without comb notation.  A pair may be written in several ways, and a
type says which parts of an expression are pairs; `Ty.nested` writes each of them as `Pair`
of its two parts.  Two expressions with the same nested form differ in the notation of pairs
only.

Literals may be rewritten on the way (`Ty.nestedWith`).  What a value is written as then is
put together from what its parts are written as (`Ty.writeNested`), with one equation for
each kind of value.
-/
import Micheline.Proofs.Value.Restate

namespace Micheline.Ty

/-- An expression of a value with every pair nested and with other literals. -/
def nestedWith (leaf : Content → Node → Node) : Ty → Node → Node
  | .scalar _ kind, n => leaf kind.content n
  | .contract _ _, n => leaf (.identifier .address) n
  | .pair _ left right, n =>
    match splitPair right.isPair n with
    | .ok (first, second, _) =>
      .app "Pair" [nestedWith leaf left first, nestedWith leaf right second]
    | .error _ => n
  | .or _ left right, .prim name args annots =>
    .prim name
      (args.map (if name = "Left" then nestedWith leaf left else nestedWith leaf right)) annots
  | .option _ inner, .prim name args annots => .prim name (args.map (nestedWith leaf inner)) annots
  | .list _ elem, .seq items => .seq (items.map (nestedWith leaf elem))
  | .set _ elem, .seq items => .seq (items.map (nestedWith leaf elem))
  | .map _ key value, .seq items =>
    .seq (items.map (nestEntry (nestedWith leaf key) (nestedWith leaf value)))
  | .bigMap _ key value, .seq items =>
    .seq (items.map (nestEntry (nestedWith leaf key) (nestedWith leaf value)))
  | .ticket _ _ paired, n => nestedWith leaf paired n
  | _, n => n
where
  /-- An entry of a map with its parts nested. -/
  nestEntry (key value : Node → Node) : Node → Node
    | .prim name [k, v] annots => .prim name [key k, value v] annots
    | n => n

/-- An expression of a value with every pair nested. -/
def nested : Ty → Node → Node :=
  nestedWith fun _ n => n

/-- What a value is written as in a form, with every pair nested and with other literals. -/
def writeNested (leaf : Content → Node → Node) (form : ValueForm) (ty : Ty) (v : Val) :
    Except Error Node :=
  (ty.project form v).map (ty.nestedWith leaf)

section Equations

variable {leaf : Content → Node → Node} {form : ValueForm} {i : Info} {l r t : Ty}

/-- Nesting undoes the notation of a comb. -/
theorem nestedWith_writePair {comb : Comb} {first second : Node}
    (h : comb = .joined → r.isPair = true ∧ IsPairNode second) :
    (pair i l r).nestedWith leaf (writePair comb first second)
      = .app "Pair" [l.nestedWith leaf first, r.nestedWith leaf second] := by
  have hs : splitPair r.isPair (writePair comb first second) = .ok (first, second, comb) :=
    splitPair_eq_ok_iff.2 (splits_writePair h)
  rw [nestedWith, hs]

/-- **The notation of a pair is forgotten.** -/
theorem writeNested_pair {loaded : Bool} {a b : Val} {comb : Comb}
    (hv : Holds loaded (.pair i l r) (.pair a b comb)) :
    (pair i l r).writeNested leaf form (.pair a b comb) = (do
      let m ← l.writeNested leaf form a
      let n ← r.writeNested leaf form b
      return .app "Pair" [m, n]) := by
  cases hv with
  | pair ha hb hcomb =>
    rw [writeNested, writeNested, writeNested, project]
    rcases l.project form a with e | first
    · rfl
    rcases hsecond : r.project form b with e | second
    · rfl
    have hjoined : combIn form comb = .joined → r.isPair = true ∧ IsPairNode second := by
      intro hj
      have hr : r.isPair = true := hcomb (eq_joined_of_combIn hj)
      exact ⟨hr, isPairNode_of_project hb hr hsecond⟩
    show Except.ok ((pair i l r).nestedWith leaf (writePair (combIn form comb) first second)) = _
    rw [nestedWith_writePair hjoined]
    rfl

/-- A side is nested in what it holds. -/
theorem writeNested_val (side : Side) {a : Val} :
    (or i l r).writeNested leaf form (side.val a) = (do
      return .app (side.pick "Left" "Right") [← (side.pick l r).writeNested leaf form a]) := by
  cases side with
  | left =>
    rw [Side.val, Side.pick, Side.pick, writeNested, writeNested, project]
    rcases l.project form a with e | n
    · rfl
    · show Except.ok (Node.prim "Left" ([n].map (if "Left" = "Left" then _ else _)) []) = _
      rw [if_pos rfl]
      rfl
  | right =>
    rw [Side.val, Side.pick, Side.pick, writeNested, writeNested, project]
    rcases r.project form a with e | n
    · rfl
    · show Except.ok (Node.prim "Right" ([n].map (if "Right" = "Left" then _ else _)) []) = _
      rw [if_neg (by simp)]
      rfl

theorem writeNested_some {a : Val} :
    (option i t).writeNested leaf form (.some a) = (do
      return .app "Some" [← t.writeNested leaf form a]) := by
  rw [writeNested, writeNested, project]
  rcases t.project form a with e | n <;> rfl

theorem map_mapM_project (values : List Val) :
    (values.mapM (t.project form)).map (List.map (t.nestedWith leaf))
      = values.mapM (t.writeNested leaf form) :=
  map_mapM

/-- The items of a list or a set are nested each by itself. -/
theorem writeNested_items {ty : Ty} (hty : ty.HasItems t) {values : List Val} :
    ty.writeNested leaf form (.items values) = (do
      return .seq (← values.mapM (t.writeNested leaf form))) := by
  have hnested (items : List Node) :
      ty.nestedWith leaf (.seq items) = .seq (items.map (t.nestedWith leaf)) := by
    cases hty <;> rfl
  rw [← map_mapM_project, writeNested, project_items hty]
  rcases values.mapM (t.project form) with e | items
  · rfl
  · exact congrArg Except.ok (hnested items)

/-- The parts of an entry are nested each by itself. -/
theorem map_projectEntry {key value : Ty} (p : Val × Val) :
    (project.projectEntry (key.project form) (value.project form) p).map
        (nestedWith.nestEntry (key.nestedWith leaf) (value.nestedWith leaf))
      = project.projectEntry (key.writeNested leaf form) (value.writeNested leaf form) p := by
  rw [project.projectEntry, project.projectEntry, writeNested, writeNested]
  rcases key.project form p.1 with e | k
  · rfl
  rcases value.project form p.2 with e | v <;> rfl

/-- Entries are nested key by key and value by value. -/
theorem map_mapM_projectEntry {key value : Ty} (pairs : List (Val × Val)) :
    (pairs.mapM (project.projectEntry (key.project form) (value.project form))).map
        (List.map (nestedWith.nestEntry (key.nestedWith leaf) (value.nestedWith leaf)))
      = pairs.mapM
          (project.projectEntry (key.writeNested leaf form) (value.writeNested leaf form)) := by
  rw [map_mapM]
  exact congrArg pairs.mapM (funext map_projectEntry)

theorem writeNested_entries {ty key value : Ty} (hty : ty.HasEntries key value)
    {pointer : Option Int} {pairs : List (Val × Val)} (h : pointer = none ∨ pairs ≠ []) :
    ty.writeNested leaf form (.entries pointer pairs) = (do
      return .seq (← pairs.mapM
        (project.projectEntry (key.writeNested leaf form) (value.writeNested leaf form)))) := by
  have hnested (items : List Node) : ty.nestedWith leaf (.seq items)
      = .seq (items.map (nestedWith.nestEntry (key.nestedWith leaf) (value.nestedWith leaf))) := by
    cases hty <;> rfl
  rw [← map_mapM_projectEntry, writeNested, project_entries hty h]
  rcases pairs.mapM (project.projectEntry (key.project form) (value.project form)) with e | items
  · rfl
  · exact congrArg Except.ok (hnested items)

/-- A literal is written in the form and then rewritten. -/
theorem writeNested_literal {ty : Ty} {content : Content} (hty : ty.HasLiteral content)
    {x : Literal} : ty.writeNested leaf form (.literal x) = (do
      return leaf content (← form.literal content x).node) := by
  cases hty with
  | @scalar i kind =>
    rw [writeNested, project]
    rcases form.literal kind.content x with e | y <;> rfl
  | contract =>
    rw [writeNested, project]
    rcases form.literal (.identifier .address) x with e | y <;> rfl

end Equations

end Micheline.Ty
