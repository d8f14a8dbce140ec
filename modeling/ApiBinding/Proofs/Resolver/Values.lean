import ApiBinding.Proofs.Document.Values
import ApiBinding.Proofs.Resolver.Parts

/-!
# The values in resolved nodes

The values that a node holds, at any depth, are values of the description: no resolution makes a
value of its own.  So what is said of the defaults in a description holds of the defaults in its
nodes.

## Main definitions

* `describedValues` — what is said of defaults, in schemas and in nodes.
* `Node.Valued` — what is said of defaults holds in a node, at any depth.

## Main results

* `describedValues_sound` — **the values of a node are values of the schema that it is made from.**
-/

namespace ApiBinding

/-- What is said of defaults holds in the schema, or for those that the node holds, and no object
among the other values has equal keys. -/
def describedValues (D : Option Json → Prop) : Traits where
  schema := Schema.Valued D
  shape shape := ∀ values, shape = .enumeration values → ∀ v ∈ values, v.WellKeyed
  default := D

/-- What is said of defaults holds in the node, at any depth. -/
def Node.Valued (D : Option Json → Prop) (n : Node) : Prop := n.Has (describedValues D)

/-- The literals of a schema are values of the schema. -/
theorem wellKeyed_literals {values kept : List Json} (h : ∀ v ∈ values, v.WellKeyed)
    (hkept : (Follow.literals values).shape = .enumeration kept) : ∀ v ∈ kept, v.WellKeyed := by
  unfold Follow.literals at hkept
  dsimp only at hkept
  split at hkept
  · exact absurd hkept (by simp)
  · intro v hv
    rw [Shape.enumeration.injEq] at hkept
    exact h v (List.mem_of_mem_filter (hkept ▸ hv))

/-- **The values of a node are values of the schema** that it is made from. -/
theorem describedValues_sound {D : Option Json → Prop} (hD : D none) {d : Document}
    (hd : d.Valued D) : (describedValues D).Sound d where
  inside hs ht := Schema.Valued.inside hs (.single ht)
  component hs := hd.schemas _ (Table.mem_of_get? hs)
  noDefault := hD
  default hs := (Schema.Valued.values hs).default
  plain hplain values hshape := absurd hshape (hplain.values values)
  literals := by
    intro s name spine values hs hform kept hkept
    have hvalues := Schema.Valued.values hs
    refine wellKeyed_literals (fun v hv => ?_) hkept
    cases Schema.formed_of_eq hform with
    | enumeration _ _ henumeration => exact hvalues.enumeration values henumeration v hv
    | constant _ _ _ hconstant =>
      rw [List.mem_singleton] at hv
      exact hv ▸ hvalues.constant _ hconstant
  union := by
    intro s name spine keyword members variants location body findings _ _ _ hclassify values hshape
    -- A union holds no values itself.
    obtain ⟨tagging, hunion⟩ := classify_shape hclassify
    rw [hunion] at hshape
    exact absurd hshape (by simp)

end ApiBinding
