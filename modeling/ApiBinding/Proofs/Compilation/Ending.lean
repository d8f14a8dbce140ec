import ApiBinding.Proofs.Compilation.Order
import ApiBinding.Proofs.Resolver.Moments

/-!
# Resolutions end

However the references of a description form cycles, every resolution ends, and so does making the
models of all components.  What bounds a resolution is the number of frames: at every moment of a
run there are at most two of them for each pointer.

## Main results

* `buildModels_ends` — making the models of the components ends.
* `resolution_ends` — **every run ends, and at every moment of it the open pointers are in order.**
-/

namespace ApiBinding

/-- Work that is not exhausted has a result or is rejected. -/
theorem Ends.result {σ α : Type} {work : EStateM Interruption σ α} {s : σ} {P : σ → Prop}
    (h : Ends work s (fun _ t => P t) fun e t => e ≠ .exhausted ∧ P t) :
    (∃ a t, work s = .ok a t ∧ P t) ∨ ∃ cause t, work s = .error (.rejected cause) t ∧ P t := by
  unfold Ends at h
  split at h
  · rename_i a t hwork
    exact .inl ⟨a, t, hwork, h⟩
  · rename_i e t hwork
    cases e with
    | rejected cause => exact .inr ⟨cause, t, hwork, h.2⟩
    | exhausted => exact absurd rfl h.1

/-- **Making the models of the components ends**, with models or because the description is at
fault. -/
theorem buildModels_ends (d : Document) (naming : NamingConfig) {s : Session}
    (hs : s.stack = []) :
    Ends (buildModels d naming) { session := s } (fun _ _ => True)
      fun e _ => e ≠ .exhausted ∧ True := by
  have hJ : ∀ t u : Session, t.Alike u → t.stack = [] → u.stack = [] :=
    fun t u htu ht => htu.stack.trans ht
  have hcomponent : ∀ (c : String) (t : Session), t.stack = [] →
      Ends (d.resolveComponent c) t (fun _ u => u.stack = [] ∧ True) fun e _ =>
        e ≠ .exhausted ∧ True :=
    fun c t ht => ((Query.component c).ends d t).mono
      (fun _ u hu => ⟨hu.trans ht, trivial⟩) fun _ _ he => ⟨he.1, trivial⟩
  have hstart : Progress naming (fun t => t.stack = []) (fun _ _ => True) [] []
      { session := s } := ⟨hs, Registry.keyed_empty, by simp, by simp⟩
  unfold buildModels
  rw [ends_bind]
  refine (reserveNames_ends hJ d.componentNames [] _ hstart).mono_ok fun _ w hw => ?_
  rw [List.append_nil] at hw
  exact (buildBodies_ends (J := fun _ t => t.stack = []) (fun _ => hJ)
    (fun _ c _ _ t ht => hcomponent c t ht) d.componentNames [] w rfl hw).mono_ok
      fun _ _ _ => trivial

/-- **Every run ends, and at every moment of it the open pointers are in order.**  A run starts
while nothing is open.  At each of its moments a pointer is open at most once in the ordinary way
and at most once more above that, so there are at most two frames for each pointer of the query and
the description.  The run ends with a node or because the description is at fault, and leaves
nothing open; making the models of all components ends as well. -/
theorem resolution_ends (d : Document) (query : Query) {s : Session} (hs : s.stack = []) :
    (∀ q t, d.Moment (Document.stepBound (query.size d)) query.request s q t →
      Orderly t.stack ∧ t.stack.length ≤ 2 * (query.known d).card) ∧
    ((∃ n t, query.work d s = .ok n t ∧ t.stack = []) ∨
      ∃ cause t, query.work d s = .error (.rejected cause) t ∧ t.stack = []) ∧
    ∀ naming, (∃ w, buildModels d naming { session := s } = .ok () w) ∨
      ∃ cause w, buildModels d naming { session := s } = .error (.rejected cause) w := by
  refine ⟨fun q t h => query.moment d hs h, ?_, fun naming => ?_⟩
  · exact Ends.result ((query.ends d s).mono (fun _ t ht => ht.trans hs)
      fun _ t ht => ⟨ht.1, ht.2.trans hs⟩)
  · refine (buildModels_ends d naming hs).result.imp ?_ ?_
    · exact fun ⟨_, w, hw, _⟩ => ⟨w, hw⟩
    · exact fun ⟨cause, w, hw, _⟩ => ⟨cause, w, hw⟩

/-- The reference from a base component to the one derived from it. -/
def toNext : Schema where
  reference := some "#/components/schemas/Next"

/-- The base component. -/
def pairBase : Schema where
  properties := [("next", toNext)]

/-- The pair in a session in which the given frames are open and nothing is kept. -/
def pairOpen (stack : List Frame) : Session where
  stack := stack

/-- From a base component, the component derived from it leads back to the base component, which is
opened once more. -/
theorem pair_moment (depth : Nat) :
    pair.Moment (depth + 6) (Query.component "Base").request {}
      (.schema pairBase "#/components/schemas/Base" (some "Base") true)
      (pairOpen [⟨"#/components/schemas/Base", true, true⟩,
        ⟨"#/components/schemas/Next", false, false⟩,
        ⟨"#/components/schemas/Base", false, false⟩]) := by
  have hbase : Pointer.Whole "#/components/schemas/Base" "Base" := by decide +kernel
  have hnext : Pointer.Whole "#/components/schemas/Next" "Next" := by decide +kernel
  have hrequest : (Query.component "Base").request =
      .reference "#/components/schemas/Base" "#/components/schemas/Base" false := by
    have hpointer : Pointer.component "Base" = "#/components/schemas/Base" := by decide +kernel
    rw [Query.request, hpointer]
  rw [hrequest]
  refine .inside (makes_component hbase rfl rfl Bool.false_ne_true) ?_
  have hproperty : ∀ follow s, Makes pair follow
      (.schema pairBase "#/components/schemas/Base" (some "Base") true) s
      (.schema toNext "#/components/schemas/Base/properties/next" none false) s :=
    fun _ _ => makes_property "next" rfl rfl Bool.false_ne_true rfl
  refine .inside (hproperty _ _) ?_
  refine .inside (makes_reference rfl) ?_
  refine .inside (makes_component hnext rfl rfl (by decide +kernel)) ?_
  have hfragment : ∀ follow s, Makes pair follow
      (.schema derived "#/components/schemas/Next" (some "Next") true) s
      (.fragment "#/components/schemas/Base" "#/components/schemas/Next/allOf/0" true) s := by
    refine fun follow s => makes_of_ends fun answer e hq => ?_
    simp [Follow.step, Follow.schema, Follow.composition, Follow.wrapped?, Resolution.eachFrom,
      Follow.fragmentNode, derived]
    exact hq.mono_ok fun _ _ h => h.elim
  refine .inside (hfragment _ _) ?_
  refine .inside (makes_body_again (Document.target_of_whole hbase rfl) rfl ?_ ?_ ?_) .start
  all_goals decide +kernel

theorem resolution_ends_pair : (∃ q t,
    pair.Moment (Document.stepBound ((Query.component "Base").size pair))
      (Query.component "Base").request {} q t ∧
    t.stack = [⟨"#/components/schemas/Base", true, true⟩,
      ⟨"#/components/schemas/Next", false, false⟩,
      ⟨"#/components/schemas/Base", false, false⟩] ∧
    Orderly t.stack ∧ t.stack.length ≤ 2 * ((Query.component "Base").known pair).card) ∧
    ((∃ n t, (Query.component "Base").work pair {} = .ok n t ∧ t.stack = []) ∨
      ∃ cause t, (Query.component "Base").work pair {} = .error (.rejected cause) t ∧
        t.stack = []) := by
  have hdepth : Document.stepBound ((Query.component "Base").size pair) = 170 + 6 := by
    decide +kernel
  have hmoment := pair_moment 170
  rw [← hdepth] at hmoment
  obtain ⟨hmoments, hends, -⟩ :=
    resolution_ends pair (.component "Base") (show ({} : Session).stack = [] from rfl)
  exact ⟨⟨_, _, hmoment, rfl, hmoments _ _ hmoment⟩, hends⟩

end ApiBinding
