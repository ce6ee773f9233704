/-
Micheline/Proofs/Value/Parts.lean

The parts of a value with its type, at every depth, and what is left of a value when all
that was read into it is taken out (`Typed.clear`).

A value that its type holds has the shape of the type all the way down: it and each of its
parts clear to the blank value of their type (`Typed.IsSound.clear_part`).  Sets and the
keys of maps ascend wherever they are (`Typed.IsSound.ascends_part`).
-/
import Mathlib.Logic.Relation
import Micheline.Proofs.Value.Leaf

namespace Micheline

open Sorted

/-- A value with all that was read into it taken out.  What does not have the shape of the
type stays. -/
def Ty.clear : Ty → Val → Val
  | .bool _, .bool _ => .unset
  | .scalar _ _, .literal _ => .unset
  | .contract _ _, .literal _ => .unset
  | .pair _ left right, .pair a b _ => .pair (left.clear a) (right.clear b) .pair
  | .or _ _ _, .left _ => .unset
  | .or _ _ _, .right _ => .unset
  | .option _ _, .some _ => .none
  | .list _ _, .items _ => .items []
  | .set _ _, .items _ => .items []
  | .map _ _ _, .entries none _ => .entries none []
  | .bigMap _ _ _, .entries _ _ => .entries none []
  | .lambda _ _ _, .code _ => .unset
  | .ticket _ _ paired, v => paired.clear v
  | .saplingState _ _, .code _ => .unset
  | .saplingTransaction _ _ _, .code _ => .unset
  | .constant _ _, .code _ => .unset
  | _, v => v

theorem Ty.clear_blank (ty : Ty) : ty.clear ty.blank = ty.blank := by
  induction ty with
  | pair i l r ihl ihr =>
    show Val.pair (l.clear l.blank) (r.clear r.blank) .pair = _
    rw [ihl, ihr]
    rfl
  | ticket i content paired _ ih => exact ih
  | _ => rfl

/-- **What a type holds has its shape.** -/
theorem Ty.clear_of_holds {loaded : Bool} {ty : Ty} {v : Val} (h : Ty.Holds loaded ty v) :
    ty.clear v = ty.blank := by
  induction h with
  | pair _ _ _ iha ihb =>
    rw [clear, iha, ihb]
    rfl
  | ticket _ ih => exact ih
  | _ => rfl

/-- The types of the parts that the values of a type have. -/
def Ty.partTypes : Ty → List Ty
  | .pair _ left right => [left, right]
  | .or _ left right => [left, right]
  | .option _ inner => [inner]
  | .list _ elem => [elem]
  | .set _ elem => [elem]
  | .map _ key value => [key, value]
  | .bigMap _ key value => [key, value]
  | .ticket _ _ paired => [paired]
  | _ => []

namespace Typed

/-- A value with its type and nothing read into it. -/
def clear (t : Typed) : Typed := ⟨t.ty, t.ty.clear t.val⟩

/-- The type alone. -/
def template (t : Typed) : Typed := ⟨t.ty, t.ty.blank⟩

/-- The values right under a value, each with the type that it was read for: members of a
pair, the side of a choice, what is in an option, items and elements, keys and values, and
what is under a ticket. -/
def parts : Typed → List Typed
  | ⟨.pair _ left right, .pair a b _⟩ => [⟨left, a⟩, ⟨right, b⟩]
  | ⟨.or _ left _, .left a⟩ => [⟨left, a⟩]
  | ⟨.or _ _ right, .right b⟩ => [⟨right, b⟩]
  | ⟨.option _ inner, .some a⟩ => [⟨inner, a⟩]
  | ⟨.list _ elem, .items values⟩ => values.map (Typed.mk elem)
  | ⟨.set _ elem, .items values⟩ => values.map (Typed.mk elem)
  | ⟨.map _ key value, .entries _ pairs⟩ => pairs.flatMap fun p => [⟨key, p.1⟩, ⟨value, p.2⟩]
  | ⟨.bigMap _ key value, .entries _ pairs⟩ => pairs.flatMap fun p => [⟨key, p.1⟩, ⟨value, p.2⟩]
  | ⟨.ticket _ _ paired, v⟩ => [⟨paired, v⟩]
  | _ => []

theorem parts_val {i : Info} {l r : Ty} {a : Val} (side : Side) :
    parts ⟨.or i l r, side.val a⟩ = [⟨side.pick l r, a⟩] := by
  cases side <;> rfl

/-- What a side holds is a part of the choice. -/
theorem mem_parts_val {i : Info} {l r : Ty} {a : Val} (side : Side) :
    ⟨side.pick l r, a⟩ ∈ parts ⟨.or i l r, side.val a⟩ := by
  rw [parts_val]
  exact List.mem_cons_self

/-- A part at any depth, or the whole. -/
def IsPart (p t : Typed) : Prop :=
  Relation.ReflTransGen (fun whole part => part ∈ whole.parts) t p

/-- The elements of a set ascend, and so do the keys of a map. -/
def Ascends : Typed → Prop
  | ⟨.set _ elem, .items values⟩ => Ascending elem.compare values
  | ⟨.map _ key _, .entries _ pairs⟩ => Ascending key.compare (pairs.map (·.1))
  | ⟨.bigMap _ key _, .entries _ pairs⟩ => Ascending key.compare (pairs.map (·.1))
  | _ => True

/-- Nothing was read into the value, or it is one that the type holds. -/
def IsSound (t : Typed) : Prop :=
  t.val = t.ty.blank ∨ t.ty.Holds true t.val

variable {t p : Typed}

theorem clear_eq_template_iff : t.clear = t.template ↔ t.ty.clear t.val = t.ty.blank := by
  rw [clear, template, Typed.mk.injEq, and_iff_right rfl]

theorem IsSound.clear (h : t.IsSound) : t.clear = t.template := by
  rw [clear_eq_template_iff]
  rcases h with h | h
  · rw [h, Ty.clear_blank]
  · exact Ty.clear_of_holds h

/-! ### Parts -/

/-- A property of all parts is one of the whole and of all parts of what is right under it. -/
theorem forall_isPart_iff {P : Typed → Prop} :
    (∀ p : Typed, p.IsPart t → P p) ↔ P t ∧ ∀ c ∈ t.parts, ∀ p : Typed, p.IsPart c → P p := by
  constructor
  · exact fun h => ⟨h t .refl, fun c hc p hp => h p (.head hc hp)⟩
  · rintro ⟨ht, hparts⟩ p hp
    rcases Relation.ReflTransGen.cases_head hp with rfl | ⟨c, hc, hp⟩
    · exact ht
    · exact hparts c hc p hp

/-- Whatever the value is, the type says which types its parts have. -/
theorem ty_mem_partTypes (h : p ∈ t.parts) : p.ty ∈ t.ty.partTypes := by
  obtain ⟨ty, v⟩ := t
  cases ty with
  | pair i left right =>
    cases v with
    | pair a b comb => exact List.mem_map_of_mem (f := ty) h
    | _ => cases h
  | or i left right =>
    cases v with
    | left a => exact List.mem_singleton.1 h ▸ List.mem_cons_self
    | right b => exact List.mem_singleton.1 h ▸ List.mem_cons_of_mem _ List.mem_cons_self
    | _ => cases h
  | option i inner =>
    cases v with
    | some a => exact List.mem_map_of_mem (f := ty) h
    | _ => cases h
  | list i elem | set i elem =>
    cases v with
    | items values =>
      obtain ⟨a, -, rfl⟩ := List.mem_map.1 h
      exact List.mem_cons_self
    | _ => cases h
  | map i key value | bigMap i key value =>
    cases v with
    | entries pointer pairs =>
      obtain ⟨q, -, hp⟩ := List.mem_flatMap.1 h
      exact List.mem_map_of_mem (f := ty) hp
    | _ => cases h
  | ticket i content paired => exact List.mem_map_of_mem (f := ty) h
  | _ => cases h

/-- The parts of a blank value are blank. -/
theorem blank_of_mem_parts {ty : Ty} (h : p ∈ (Typed.mk ty ty.blank).parts) :
    p.val = p.ty.blank := by
  cases ty with
  | pair i l r =>
    rcases List.mem_pair.1 h with rfl | rfl <;> rfl
  | ticket i content paired =>
    obtain rfl := List.mem_singleton.1 h
    rfl
  | _ => cases h

/-- The keys and values of a map are held. -/
theorem holds_of_mem_entries {key value : Ty} {pairs : List (Val × Val)}
    (hk : ∀ q ∈ pairs, key.Holds true q.1) (hv : ∀ q ∈ pairs, value.Holds true q.2)
    (h : p ∈ pairs.flatMap fun q => [Typed.mk key q.1, Typed.mk value q.2]) :
    p.ty.Holds true p.val := by
  obtain ⟨q, hq, hp⟩ := List.mem_flatMap.1 h
  rcases List.mem_pair.1 hp with rfl | rfl
  · exact hk q hq
  · exact hv q hq

/-- The parts of a value that is held are held. -/
theorem holds_of_mem_parts {ty : Ty} {v : Val} (hv : ty.Holds true v)
    (h : p ∈ (Typed.mk ty v).parts) : p.ty.Holds true p.val := by
  cases hv with
  | pair ha hb _ =>
    rcases List.mem_pair.1 h with rfl | rfl
    · exact ha
    · exact hb
  | left ha =>
    obtain rfl := List.mem_singleton.1 h
    exact ha
  | right hb =>
    obtain rfl := List.mem_singleton.1 h
    exact hb
  | some ha =>
    obtain rfl := List.mem_singleton.1 h
    exact ha
  | list hvalues | set hvalues _ =>
    obtain ⟨v, hv, rfl⟩ := List.mem_map.1 h
    exact hvalues v hv
  | map hk hv _ | bigMap hk hv _ | loaded _ _ hk hv _ => exact holds_of_mem_entries hk hv h
  | ticket hv =>
    obtain rfl := List.mem_singleton.1 h
    exact hv
  | _ => cases h

theorem holds_of_isPart (h : t.ty.Holds true t.val) (hp : p.IsPart t) :
    p.ty.Holds true p.val := by
  induction hp with
  | refl => exact h
  | tail _ hmem ih => exact holds_of_mem_parts ih hmem

/-- The parts of what is sound are sound. -/
theorem IsSound.of_mem_parts (ht : t.IsSound) (h : p ∈ t.parts) : p.IsSound := by
  obtain ⟨ty, v⟩ := t
  rcases ht with hv | hv
  · obtain rfl : v = ty.blank := hv
    exact .inl (blank_of_mem_parts h)
  · exact .inr (holds_of_mem_parts hv h)

/-- **Every part is sound** if the whole is. -/
theorem IsSound.of_isPart (ht : t.IsSound) (h : p.IsPart t) : p.IsSound := by
  induction h with
  | refl => exact ht
  | tail _ hmem ih => exact ih.of_mem_parts hmem

/-- **Every part clears to its template.** -/
theorem IsSound.clear_part (ht : t.IsSound) (h : p.IsPart t) : p.clear = p.template :=
  (ht.of_isPart h).clear

/-- The elements and keys of what is sound ascend. -/
theorem IsSound.ascends (ht : t.IsSound) : t.Ascends := by
  obtain ⟨ty, v⟩ := t
  rcases ht with hv | hv
  · obtain rfl : v = ty.blank := hv
    cases ty with
    | set | map | bigMap => exact List.Pairwise.nil
    | _ => trivial
  · cases hv with
    | set _ hs | map _ _ hs | bigMap _ _ hs => exact hs
    | pointer _ => exact List.Pairwise.nil
    | loaded _ _ _ _ hs => exact hs
    | _ => trivial

/-- **Sets and maps ascend**, wherever they are. -/
theorem IsSound.ascends_part (ht : t.IsSound) (h : p.IsPart t) : p.Ascends :=
  (ht.of_isPart h).ascends

end Typed

end Micheline
