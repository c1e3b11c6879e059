import Statechart.Proofs.Construction

/-!
# Operations that are refused

A building operation looks at all that it may be refused for before it changes anything. The one exception is the
default region that a vertex is added to, which may be made before the name of the vertex is looked at; but in a region
that has just been made every name is free.
-/

namespace Statechart

variable {μ δ : Type}

namespace Build

variable {α : Type} {m : Machine μ δ}

/-- The operation on this machine comes to `Q`, or is refused and leaves the machine as it was. -/
abbrev Attempts (m : Machine μ δ) (b : Build μ δ α) (Q : α → Machine μ δ → Prop) : Prop :=
  Triple (· = m) b Q fun _ m' => m' = m

def Dirty (m : Machine μ δ) : Prop := m.isClean = false

theorem triple_change {P : Machine μ δ → Prop} {E : BuildError → Machine μ δ → Prop} (f : Model μ δ → Model μ δ) :
    Triple P (change f) (fun _ => Dirty) E := Triple.modify fun _ _ => rfl

theorem triple_change_pure {P : Machine μ δ → Prop} {E : BuildError → Machine μ δ → Prop} (f : Model μ δ → Model μ δ)
    (a : α) : Triple P (do change f; pure a) (fun _ => Dirty) E :=
  Triple.bind (triple_change f) fun _ => Triple.pure fun _ hm => hm

theorem attempts_get : Attempts m MonadState.get fun m' now => m' = m ∧ now = m := Triple.get fun _ hm => ⟨hm, hm⟩

theorem attempts_vertex (v : VertexId) : Attempts m (vertex v) fun _ m' => m' = m :=
  (vertex_spec (· = m) v).post fun _ _ hm => hm.1

theorem attempts_state (v : VertexId) : Attempts m (state v) fun _ m' => m' = m :=
  (state_spec (· = m) v).post fun _ _ hm => hm.1

/-! ## Regions and vertices -/

def Fresh (r : RegionId) (m : Machine μ δ) : Prop := Dirty m ∧ m.verticesOf r = []

theorem attempts_addRegion (owner : VertexId) (name : String) :
    Attempts m (addRegion owner name) Fresh := by
  refine Triple.bind (attempts_state owner) fun _ => Triple.bind attempts_get fun m' => ?_
  refine Triple.assume fun now ⟨hm', hnow⟩ => ?_
  subst hm' hnow
  have hnew : (now.pushRegion owner name).verticesOf ⟨now.regions.size⟩ = [] := by
    rw [Model.verticesOf_pushRegion, Model.verticesOf, Model.region?_size]
    rfl
  refine Triple.bind (R := fun _ => Fresh ⟨now.regions.size⟩) (Triple.modify fun _ hm => ?_) fun _ =>
    Triple.pure fun _ hm => hm
  subst hm
  exact ⟨rfl, hnew⟩

def Found (m : Machine μ δ) (owner : VertexId) (r : RegionId) (m' : Machine μ δ) : Prop :=
  m' = m ∧ m.regionNamed? owner defaultRegionName = some r

theorem attempts_defaultRegion (owner : VertexId) :
    Attempts m (defaultRegion owner) fun r m' => Fresh r m' ∨ Found m owner r m' := by
  refine Triple.bind (attempts_state owner) fun _ => Triple.bind attempts_get fun m' => ?_
  refine Triple.assume fun now ⟨hm', hnow⟩ => ?_
  subst hm' hnow
  cases hr : now.regionNamed? owner defaultRegionName with
  | none => exact (attempts_addRegion owner defaultRegionName).post fun _ _ hm => Or.inl hm
  | some r => exact Triple.pure fun m' hm => Or.inr ⟨hm, hr⟩

theorem attempts_regionOf (parent : Parent) : Attempts m (regionOf parent) fun r m' => Fresh r m' ∨ m' = m := by
  cases parent with
  | state owner => exact (attempts_defaultRegion owner).post fun _ _ hm => hm.imp id And.left
  | region id =>
    refine Triple.bind attempts_get fun m' => ?_
    split
    · exact Triple.pure fun _ hm => Or.inr hm.2
    · exact Triple.throw fun _ hm => hm.2

theorem Fresh.vertexNamed?_eq_none {r : RegionId} (h : Fresh r m) (name : String) : m.vertexNamed? r name = none := by
  rw [Model.vertexNamed?, h.2]
  rfl

theorem attempts_addVertex (parent : Parent) (name : String) (form : Form μ δ) :
    Attempts m (addVertex parent name form) fun _ => Dirty := by
  refine Triple.bind (attempts_regionOf parent) fun r => ?_
  refine Triple.bind (Triple.get (Q := fun m' now => (Fresh r now ∨ now = m) ∧ m' = now)
    fun _ hm => ⟨hm, rfl⟩) fun m' => ?_
  refine Triple.assume fun now ⟨hnow, hm'⟩ => ?_
  subst hm'
  split
  · rename_i htaken
    -- The name is taken, so the region was there before.
    have hsame : m' = m := hnow.resolve_left fun hfresh => by
      rw [hfresh.vertexNamed?_eq_none name] at htaken
      cases htaken
    exact Triple.throw_bind fun _ hm => hm.trans hsame
  · exact triple_change_pure _ _

theorem attempts_rename (v : VertexId) (name : String) : Attempts m (rename v name) fun _ => Dirty := by
  refine Triple.bind (attempts_vertex v) fun record => Triple.bind attempts_get fun m' => ?_
  cases record.parent with
  | none => exact triple_change _
  | some region =>
    simp only
    split
    · exact Triple.throw_bind fun _ hm => hm.2
    · exact triple_change _

/-! ## Behaviour and transitions -/

theorem attempts_onEntry (owner : VertexId) (action : Action μ δ) :
    Attempts m (onEntry owner action) fun _ => Dirty :=
  Triple.bind (attempts_state owner) fun _ => triple_change _

theorem attempts_onExit (owner : VertexId) (action : Action μ δ) :
    Attempts m (onExit owner action) fun _ => Dirty :=
  Triple.bind (attempts_state owner) fun _ => triple_change _

theorem attempts_addEffect (t : TransitionId) (action : Action μ δ) :
    Attempts m (addEffect t action) fun _ => Dirty := by
  refine Triple.bind attempts_get fun m' => ?_
  split
  · exact Triple.throw_bind fun _ hm => hm.2
  · exact triple_change _

theorem attempts_addTransition (d : Draft μ δ) : Attempts m (addTransition d) fun _ => Dirty := by
  refine Triple.bind (attempts_vertex d.source) fun source => ?_
  have hpush : ∀ (t : Transition μ δ) (id : TransitionId) (P : Machine μ δ → Prop),
      Triple P (do change (·.pushTransition t); pure id) (fun _ => Dirty) (fun _ m' => m' = m) :=
    fun _ _ _ => triple_change_pure _ _
  cases d.target with
  | none => exact Triple.bind attempts_get fun _ => hpush _ _ _
  | some target =>
    refine Triple.bind (attempts_vertex target) fun _ => Triple.bind attempts_get fun m' => ?_
    by_cases hk : d.kind = .internal
    · simp only [hk, ite_true]
      by_cases hs : target = d.source
      · simp only [hs, ite_true]
        exact hpush _ _ _
      · simp only [hs, ite_false]
        exact Triple.throw_bind fun _ hm => hm.2
    · simp only [hk, ite_false]
      exact hpush _ _ _

theorem Attempts.discard {b : Build μ δ α} {Q : Machine μ δ → Prop} (h : Attempts m b fun _ => Q) :
    Attempts m (discard b) fun _ => Q :=
  Triple.bind h fun _ => Triple.pure fun _ hm => hm

end Build

namespace Edit

/-- A state's default region is asked for, and the state has one. -/
def IsIdle (e : Edit μ δ) (m : Machine μ δ) : Prop :=
  ∃ owner r region, e = .defaultRegion owner ∧ m.isState owner = true ∧ r ∈ m.regionsOf owner ∧
    m.region? r = some region ∧ region.name = defaultRegionName

theorem isIdle_of_regionNamed? {m : Machine μ δ} {owner : VertexId} {r : RegionId}
    (h : m.regionNamed? owner defaultRegionName = some r) : (defaultRegion owner : Edit μ δ).IsIdle m := by
  unfold Model.regionNamed? at h
  have hmem := List.mem_of_find?_eq_some h
  have hnamed := List.find?_some h
  obtain ⟨region, hregion, hname⟩ := (Option.any_eq_true _ _).mp hnamed
  exact ⟨owner, r, region, rfl, Model.isState_of_mem_regionsOf hmem, hmem, hregion, by simpa using hname⟩

theorem attempts_perform (e : Edit μ δ) (m : Machine μ δ) :
    Build.Attempts m e.perform fun _ m' => m'.isClean = false ∨ e.IsIdle m ∧ m' = m := by
  have hdirty : ∀ {b : Build μ δ Unit}, Build.Attempts m b (fun _ => Build.Dirty) →
      Build.Attempts m b fun _ m' => m'.isClean = false ∨ e.IsIdle m ∧ m' = m :=
    fun h => h.post fun _ _ hm => Or.inl hm
  cases e with
  | addRegion owner name =>
    exact hdirty (Build.Attempts.discard ((Build.attempts_addRegion owner name).post fun _ _ hm => hm.1))
  | defaultRegion owner =>
    refine Build.Attempts.discard ((Build.attempts_defaultRegion owner).post fun r m' hm => ?_)
    exact hm.imp And.left fun hfound => ⟨isIdle_of_regionNamed? hfound.2, hfound.1⟩
  | addState parent name => exact hdirty (Build.attempts_addVertex parent name _).discard
  | addFinalState parent name => exact hdirty (Build.attempts_addVertex parent name _).discard
  | addPseudoState parent name kind => exact hdirty (Build.attempts_addVertex parent name _).discard
  | onEntry owner action => exact hdirty (Build.attempts_onEntry owner action)
  | onExit owner action => exact hdirty (Build.attempts_onExit owner action)
  | addTransition draft => exact hdirty (Build.attempts_addTransition draft).discard
  | addEffect t action => exact hdirty (Build.attempts_addEffect t action)
  | rename v name => exact hdirty (Build.attempts_rename v name)

/-- An operation that is refused leaves the machine as it was: its regions, vertices and transitions, and its program if
it had one. Any other leaves a machine that has to be compiled again, unless it has asked for a default region that is
there already: then nothing has changed, either. -/
theorem changes_all_or_nothing (e : Edit μ δ) (m : Machine μ δ) :
    (∀ error m', e.perform m = .error error m' → m' = m) ∧
      ∀ m', e.perform m = .ok () m' → m'.isClean = false ∨ e.IsIdle m ∧ m' = m :=
  ⟨fun _ _ herror => (e.attempts_perform m).of_error rfl herror,
    fun _ hok => (e.attempts_perform m).of_ok rfl hok⟩

end Edit

end Statechart
