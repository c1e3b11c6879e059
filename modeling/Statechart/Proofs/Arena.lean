import Statechart.Model

/-!
# Models that hang together

In a model that hangs together every identity stands for something, ownership is a tree that grows downwards with the
identities, and the lists of a part agree with what the listed parts say of themselves.
-/

namespace Statechart

variable {μ δ : Type}

/-! ## Actions that leave the configuration alone -/

/-- The action neither records a vertex nor changes whether the instance has terminated. -/
def Action.Tame (a : Action μ δ) : Prop :=
  ∀ trigger i, (a trigger i).records = i.records ∧ (a trigger i).terminated = i.terminated

def Action.KeepsRecords (a : Action μ δ) : Prop := ∀ trigger i, (a trigger i).records = i.records

namespace Model

structure Tame (m : Model μ δ) : Prop where
  entry : ∀ {v record content}, m.vertex? v = some record → record.form = .state content →
    ∀ a ∈ content.entry, Action.Tame a
  exit : ∀ {v record content}, m.vertex? v = some record → record.form = .state content →
    ∀ a ∈ content.exit, Action.Tame a
  effect : ∀ {t record}, m.transition? t = some record → ∀ a ∈ record.effects, Action.Tame a

structure Acts (m : Model μ δ) (A : Action μ δ → Prop) : Prop where
  entry : ∀ {v record content}, m.vertex? v = some record → record.form = .state content → ∀ a ∈ content.entry, A a
  exit : ∀ {v record content}, m.vertex? v = some record → record.form = .state content → ∀ a ∈ content.exit, A a
  effect : ∀ {t record}, m.transition? t = some record → ∀ a ∈ record.effects, A a

theorem tame_iff {m : Model μ δ} : m.Tame ↔ m.Acts Action.Tame :=
  ⟨fun h => ⟨h.entry, h.exit, h.effect⟩, fun h => ⟨h.entry, h.exit, h.effect⟩⟩

theorem Acts.mono {m : Model μ δ} {A A' : Action μ δ → Prop} (h : m.Acts A) (hA : ∀ a, A a → A' a) : m.Acts A' where
  entry hv hf a ha := hA a (h.entry hv hf a ha)
  exit hv hf a ha := hA a (h.exit hv hf a ha)
  effect hrec a ha := hA a (h.effect hrec a ha)

theorem acts_any (m : Model μ δ) : m.Acts fun _ => True := ⟨by simp, by simp, by simp⟩

/-! ## Reading a model -/

theorem mem_transitionIds {m : Model μ δ} {t : TransitionId} {record : Transition μ δ}
    (ht : m.transition? t = some record) : t ∈ m.transitionIds := by
  obtain ⟨hlt, _⟩ := Array.getElem?_eq_some_iff.mp ht
  cases t; simpa [transitionIds] using hlt

def name? (m : Model μ δ) (v : VertexId) : Option String := (m.vertex? v).map (·.name)

def owner? (m : Model μ δ) (r : RegionId) : Option VertexId := (m.region? r).map (·.parent)

def source? (m : Model μ δ) (t : TransitionId) : Option VertexId := (m.transition? t).map (·.source)

def target? (m : Model μ δ) (t : TransitionId) : Option VertexId := (m.transition? t).bind (·.target)

def kind? (m : Model μ δ) (v : VertexId) : Option PseudoKind := (m.vertex? v).bind (·.pseudoKind?)

def isState (m : Model μ δ) (v : VertexId) : Bool := (m.vertex? v).any (·.isState)

def isFinal (m : Model μ δ) (v : VertexId) : Bool := (m.vertex? v).any (·.isFinal)

def isBranch (m : Model μ δ) (v : VertexId) : Bool := (m.vertex? v).any fun record => record.pseudoKind?.any (·.isBranch)

structure Arena (m : Model μ δ) : Prop where
  isState_root : m.isState root = true
  parent?_root : m.parent? root = none
  parent?_of_ne : ∀ {v}, (m.vertex? v).isSome → v ≠ root → (m.parent? v).isSome
  mem_verticesOf : ∀ {r v}, v ∈ m.verticesOf r ↔ m.parent? v = some r
  mem_regionsOf : ∀ {r v}, r ∈ m.regionsOf v ↔ m.owner? r = some v
  nodup_verticesOf : ∀ r, (m.verticesOf r).Nodup
  nodup_regionsOf : ∀ v, (m.regionsOf v).Nodup
  /-- What owns a vertex is older than the vertex. -/
  owner?_lt : ∀ {v r o}, m.parent? v = some r → m.owner? r = some o → o.index < v.index
  mem_outgoing : ∀ {t v}, t ∈ m.outgoing v ↔ (m.transition? t).map (·.source) = some v
  source_isSome : ∀ {t record}, m.transition? t = some record → (m.vertex? record.source).isSome
  target_isSome : ∀ {t record u}, m.transition? t = some record → record.target = some u → (m.vertex? u).isSome
  internal_iff : ∀ {t record}, m.transition? t = some record → (record.kind = .internal ↔ record.target = none)

variable {m : Model μ δ}

theorem parent?_eq_some {v : VertexId} {r : RegionId} :
    m.parent? v = some r ↔ ∃ record, m.vertex? v = some record ∧ record.parent = some r := by
  simp [parent?, Option.bind_eq_some_iff]

theorem owner?_eq_some {r : RegionId} {o : VertexId} :
    m.owner? r = some o ↔ ∃ region, m.region? r = some region ∧ region.parent = o := by
  simp [owner?]

theorem kind?_eq_some {v : VertexId} {kind : PseudoKind} :
    m.kind? v = some kind ↔ ∃ record, m.vertex? v = some record ∧ record.form = .pseudo kind := by
  rw [kind?, Option.bind_eq_some_iff]
  refine exists_congr fun record => and_congr_right fun _ => ?_
  cases hf : record.form <;> simp [Vertex.pseudoKind?, hf]

theorem isState_iff {v : VertexId} :
    m.isState v = true ↔ ∃ record content, m.vertex? v = some record ∧ record.form = .state content := by
  unfold isState
  cases hv : m.vertex? v with
  | none => simp
  | some record => cases hf : record.form <;> simp [Vertex.isState, Vertex.state?, hf]

theorem isState_of_mem_regionsOf {v : VertexId} {r : RegionId} (h : r ∈ m.regionsOf v) : m.isState v = true := by
  unfold regionsOf at h
  cases hv : m.vertex? v with
  | none => simp [hv] at h
  | some record =>
    cases hf : record.form with
    | pseudo kind => simp [hv, Vertex.regions, hf] at h
    | state content => exact isState_iff.mpr ⟨record, content, hv, hf⟩

theorem vertex?_isSome_of_isState {v : VertexId} (h : m.isState v = true) : (m.vertex? v).isSome = true := by
  obtain ⟨record, _, hv, _⟩ := isState_iff.mp h
  simp [hv]

theorem vertex?_isSome_of_parent? {v : VertexId} {r : RegionId} (h : m.parent? v = some r) :
    (m.vertex? v).isSome = true := by
  obtain ⟨record, hv, _⟩ := parent?_eq_some.mp h
  simp [hv]

theorem isState_eq_false_of_isInitial {v : VertexId} (h : m.isInitial v = true) : m.isState v = false := by
  unfold isInitial at h; unfold isState
  cases hv : m.vertex? v with
  | none => rfl
  | some record => cases hf : record.form <;> simp_all [Vertex.isInitial, Vertex.isState, Vertex.pseudoKind?, Vertex.state?]

theorem isBranch_of_isState {v : VertexId} (h : m.isState v = true) : m.isBranch v = false := by
  obtain ⟨record, content, hv, hf⟩ := isState_iff.mp h
  simp [isBranch, hv, Vertex.pseudoKind?, hf]

theorem vertex?_isSome_of_isInitial {v : VertexId} (h : m.isInitial v = true) : (m.vertex? v).isSome = true := by
  unfold isInitial at h
  cases hv : m.vertex? v with
  | none => rw [hv] at h; cases h
  | some record => rfl

namespace Arena

variable (h : m.Arena)
include h

/-! ## Owners and members -/

theorem isState_of_owner? {r : RegionId} {o : VertexId} (ho : m.owner? r = some o) : m.isState o = true :=
  isState_of_mem_regionsOf (h.mem_regionsOf.mpr ho)

theorem owner?_of_parent? {v : VertexId} {r : RegionId} (hv : m.parent? v = some r) : ∃ o, m.owner? r = some o := by
  have hm := h.mem_verticesOf.mpr hv
  unfold verticesOf at hm; unfold owner?
  cases hr : m.region? r with
  | none => simp [hr] at hm
  | some region => exact ⟨region.parent, rfl⟩

theorem root_or_owner {v : VertexId} (hv : (m.vertex? v).isSome) :
    v = root ∨ ∃ r o, m.parent? v = some r ∧ m.owner? r = some o ∧ o.index < v.index := by
  by_cases hr : v = root
  · exact Or.inl hr
  · obtain ⟨r, hp⟩ := Option.isSome_iff_exists.mp (h.parent?_of_ne hv hr)
    obtain ⟨o, ho⟩ := h.owner?_of_parent? hp
    exact Or.inr ⟨r, o, hp, ho, h.owner?_lt hp ho⟩

theorem ne_root_of_parent? {v : VertexId} {r : RegionId} (hv : m.parent? v = some r) : v ≠ root := by
  rintro rfl; rw [h.parent?_root] at hv; cases hv

theorem exists_parent? {v : VertexId} (hv : (m.vertex? v).isSome) (hs : m.isState v = false) :
    ∃ r, m.parent? v = some r := by
  rcases h.root_or_owner hv with rfl | ⟨r, _, hp, _, _⟩
  · rw [h.isState_root] at hs; cases hs
  · exact ⟨r, hp⟩

theorem vertex?_root_isSome : (m.vertex? root).isSome = true := vertex?_isSome_of_isState h.isState_root

/-- Induction from the root downwards. -/
theorem induction {motive : VertexId → Prop} (base : motive root)
    (step : ∀ v r o, m.parent? v = some r → m.owner? r = some o → motive o → motive v) (v : VertexId)
    (hv : (m.vertex? v).isSome) : motive v := by
  rcases h.root_or_owner hv with rfl | ⟨r, o, hp, ho, hlt⟩
  · exact base
  · exact step v r o hp ho (induction base step o (vertex?_isSome_of_isState (h.isState_of_owner? ho)))
termination_by v.index

theorem source_of_mem_outgoing {t : TransitionId} {v : VertexId} (ht : t ∈ m.outgoing v) :
    ∃ record, m.transition? t = some record ∧ record.source = v := by
  have := h.mem_outgoing.mp ht
  simpa using this

theorem mem_outgoing_source {t : TransitionId} {record : Transition μ δ} (ht : m.transition? t = some record) :
    t ∈ m.outgoing record.source := h.mem_outgoing.mpr (by simp [ht])

end Arena

end Model

end Statechart
