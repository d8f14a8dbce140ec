import ApiBinding.Composition.Merge
import ApiBinding.Proofs.Tables

/-!
# What merged fragments declare

The properties of a merged object are those of its fragments in order of first declaration,
and what one of the fragments requires is required.  A table under construction and a list of
distinct names grow in the same way, so both come down to the list of distinct names.

## Main results

* `ObjectParts.keys_addFragments`, `ObjectParts.mem_required_addFragments` — the object that
  fragments make, if all of them are objects.
* `mergeFragments_objects` — the body of a composition of objects.
-/

namespace ApiBinding

namespace ObjectParts

/-- The properties of a fragment come after those that are declared already. -/
theorem keys_addProperties (location : String) (index : Nat) (properties : List (String × Node)) :
    ∀ declared, Table.keys (addProperties location index declared properties).1 =
      extendNew (Table.keys declared) (Table.keys properties) := by
  induction properties with
  | nil => intro declared; rfl
  | cons p rest ih =>
    intro declared
    rw [addProperties, Table.keys_cons, extendNew_cons, ← Table.keys_insert_eq_addNew]
    exact ih _

/-- The names that a node declares, if it is an object. -/
def declaredKeys (n : Node) : List String := Table.keys n.shape.properties

/-- The names that a node requires, if it is an object. -/
def requiredNames (n : Node) : List String :=
  match n.shape with
  | .object _ required _ => required
  | _ => []

theorem keys_addFragment {location : String} {index : Nat} {parts : ObjectParts} {n : Node} :
    Table.keys (parts.addFragment location index n).1.properties =
      extendNew (Table.keys parts.properties) (declaredKeys n) := by
  unfold addFragment declaredKeys Shape.properties
  cases n.shape <;> simp [keys_addProperties]

theorem required_addFragment {location : String} {index : Nat} {parts : ObjectParts} {n : Node} :
    (parts.addFragment location index n).1.required =
      extendNew parts.required (requiredNames n) := by
  unfold addFragment requiredNames
  cases n.shape <;> simp

/-- The properties of the object that fragments make, in order of first declaration. -/
theorem keys_addFragments (location : String) (nodes : List Node) :
    ∀ (index : Nat) (parts : ObjectParts),
      Table.keys (addFragments location index parts nodes).1.properties =
        extendNew (Table.keys parts.properties) (nodes.flatMap declaredKeys) := by
  induction nodes with
  | nil => intro index parts; rfl
  | cons n rest ih =>
    intro index parts
    rw [addFragments, List.flatMap_cons, extendNew_append, ← keys_addFragment]
    exact ih _ _

/-- The object that fragments make requires what one of them requires. -/
theorem required_addFragments (location : String) (nodes : List Node) :
    ∀ (index : Nat) (parts : ObjectParts),
      (addFragments location index parts nodes).1.required =
        extendNew parts.required (nodes.flatMap requiredNames) := by
  induction nodes with
  | nil => intro index parts; rfl
  | cons n rest ih =>
    intro index parts
    rw [addFragments, List.flatMap_cons, extendNew_append, ← required_addFragment]
    exact ih _ _

/-- The last fragment is added to what the others contribute. -/
theorem addFragments_concat (location : String) (last : Node) :
    ∀ (nodes : List Node) (index : Nat) (parts : ObjectParts),
      (addFragments location index parts (nodes ++ [last])).1 =
        ((addFragments location index parts nodes).1.addFragment location (index + nodes.length)
          last).1
  | [], _, _ => rfl
  | n :: rest, index, parts => by
    rw [List.cons_append, addFragments, addFragments, List.length_cons, ← Nat.add_assoc,
      Nat.add_right_comm]
    exact addFragments_concat location last rest _ _

end ObjectParts

/-- **The body of a composition with an object among its fragments**: the properties in order of
first declaration, and all required names. -/
theorem mergeFragments_objects {nodes : List Node} (location : String)
    (h : nodes.any fun n => n.shape.isObject) :
    ∃ properties additional, (mergeFragments nodes location).1.shape =
        .object properties (distinct (nodes.flatMap ObjectParts.requiredNames)) additional ∧
      Table.keys properties = distinct (nodes.flatMap ObjectParts.declaredKeys) := by
  rw [mergeFragments, if_pos h]
  refine ⟨(ObjectParts.addFragments location 0 {} nodes).1.properties,
    (ObjectParts.addFragments location 0 {} nodes).1.additional, ?_,
    ObjectParts.keys_addFragments location nodes 0 {}⟩
  show Shape.object _ _ _ = _
  rw [ObjectParts.required_addFragments]
  rfl

/-- With an object as the last of them, fragments make an object. -/
theorem mergeFragments_concat (location : String) {nodes : List Node} {last : Node}
    (h : last.shape.isObject) :
    (mergeFragments (nodes ++ [last]) location).1 =
      ((ObjectParts.addFragments location 0 {} nodes).1.addFragment location nodes.length
        last).1.toBody := by
  rw [mergeFragments, if_pos (by simp [h])]
  show (ObjectParts.addFragments location 0 {} (nodes ++ [last])).1.toBody = _
  rw [ObjectParts.addFragments_concat, Nat.zero_add]

end ApiBinding
