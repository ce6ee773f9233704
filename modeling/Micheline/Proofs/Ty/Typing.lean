/-
Micheline/Proofs/Ty/Typing.lean

What types that were read look like: the values of a ticket are written as pairs
(`Ty.pairsTickets_of_ofNodes`), at any depth.

The second type of a ticket is written by an expression too, and that is a pair
(`Ty.ticketPair`).
-/
import Micheline.Proofs.Ty.Reading
import Micheline.Value.Settle

namespace Micheline.Ty

/-- The values of every ticket in the type are pairs.  Types that have no values of their own
inside are not looked into. -/
def PairsTickets : Ty → Prop
  | .pair _ left right => left.PairsTickets ∧ right.PairsTickets
  | .or _ left right => left.PairsTickets ∧ right.PairsTickets
  | .option _ inner => inner.PairsTickets
  | .list _ elem => elem.PairsTickets
  | .set _ elem => elem.PairsTickets
  | .map _ key value => key.PairsTickets ∧ value.PairsTickets
  | .bigMap _ key value => key.PairsTickets ∧ value.PairsTickets
  | .ticket _ _ paired => paired.isPair = true ∧ paired.PairsTickets
  | _ => True

/-- The tickets of a type that is none are those of its children. -/
theorem pairsTickets_of_children {ty : Ty} (hticket : ty.prim ≠ .ticket)
    (h : ∀ t ∈ ty.children, t.PairsTickets) : ty.PairsTickets := by
  cases ty <;> simp_all [PairsTickets, children, prim]

theorem isPair_of_writes_ticketPair {d s s' : Nat} {n : Node} {ty : Ty}
    (h : WritesType d (ticketPair n) s ty s') : ty.isPair = true := by
  obtain ⟨again, s₁, -, rfl, -⟩ := ofNodeAt_ticketPair_eq_ok_iff.1 h.ofNodeAt_eq
  rfl

/-- **A type that is written pairs its tickets.** -/
theorem WritesType.pairsTickets {d s s' : Nat} {n : Node} {ty : Ty} (h : WritesType d n s ty s') :
    ty.PairsTickets := by
  induction h with
  | leaf hname hinfo hchildren _ =>
    exact pairsTickets_of_children (prim_ne_ticket (by simp [hchildren])) (by simp [hchildren])
  | one hname hinfo hchildren hticket _ ih =>
    exact pairsTickets_of_children hticket (by simpa [hchildren] using ih)
  | two hname hinfo hchildren _ _ iha ihb =>
    exact pairsTickets_of_children (prim_ne_ticket (by simp [hchildren]))
      (by simpa [hchildren] using ⟨iha, ihb⟩)
  | comb hname hrest _ _ iha ihb => exact ⟨iha, ihb⟩
  | ticket hname _ hpaired _ ihpaired => exact ⟨isPair_of_writes_ticketPair hpaired, ihpaired⟩

/-- The tickets of types that are read have pairs. -/
theorem WritesTypes.pairsTickets {ns : List Node} {s s' : Nat} {tys : List Ty}
    (h : WritesTypes ns s tys s') : ∀ ty ∈ tys, ty.PairsTickets := by
  induction h with
  | nil => exact List.forall_mem_nil _
  | cons h _ ih => exact List.forall_mem_cons.2 ⟨h.pairsTickets, ih⟩

/-- **The tickets of types that were read are pairs.** -/
theorem pairsTickets_of_ofNodes {ns : List Node} {tys : List Ty} (h : ofNodes ns = .ok tys) :
    ∀ ty ∈ tys, ty.PairsTickets := by
  obtain ⟨count, hwrites⟩ := ofNodes_eq_ok_iff.1 h
  exact hwrites.pairsTickets

end Micheline.Ty
