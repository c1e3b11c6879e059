import Statechart.Proofs.Chains

/-!
# What sequences are made of

Every step of a program begins to enter a vertex, is on the way of an arrival, or leaves a vertex. What is said of all
the steps of a sequence is read off these three.
-/

namespace Statechart

variable {μ δ : Type}

/-- The step is over without any other. -/
def Step.IsBrief : Step μ δ → Prop
  | .leaveRegion _ | .enterRegion .. | .traverse _ => False
  | _ => True

namespace Model

variable {m : Model μ δ} {plainly : RegionId → Bool} {A : Action μ δ → Prop} {V : VertexId → Prop}
variable {v : VertexId} {r : RegionId} {t : TransitionId} {s : Step μ δ}

/-! ## Actions of states -/

/-- What a state does on its way in; a pseudo state does nothing. -/
def entryActions (m : Model μ δ) (v : VertexId) : List (Action μ δ) := ((m.vertex? v).bind (·.state?)).elim [] (·.entry)

def exitActions (m : Model μ δ) (v : VertexId) : List (Action μ δ) := ((m.vertex? v).bind (·.state?)).elim [] (·.exit)

theorem exists_state_of_mem {α : Type} {f : State μ δ → List α} {x : α}
    (hx : x ∈ ((m.vertex? v).bind (·.state?)).elim [] f) :
    ∃ record content, m.vertex? v = some record ∧ record.form = .state content ∧ x ∈ f content := by
  cases hrec : m.vertex? v with
  | none => simp [hrec] at hx
  | some record =>
    cases hf : record.form with
    | pseudo kind => simp [hrec, Vertex.state?, hf] at hx
    | state content => exact ⟨record, content, rfl, hf, by simpa [hrec, Vertex.state?, hf] using hx⟩

theorem Acts.entryActions (hA : m.Acts A) : ∀ a ∈ m.entryActions v, A a := fun a ha => by
  obtain ⟨record, content, hrec, hf, ha⟩ := exists_state_of_mem ha
  exact hA.entry hrec hf a ha

theorem Acts.exitActions (hA : m.Acts A) : ∀ a ∈ m.exitActions v, A a := fun a ha => by
  obtain ⟨record, content, hrec, hf, ha⟩ := exists_state_of_mem ha
  exact hA.exit hrec hf a ha

/-! ## The parts of sequences -/

theorem leaveVertex_eq (hv : (m.vertex? v).isSome) :
    m.leaveVertex v = (m.regionsOf v).flatMap leaveRegion ++
      .announceLeave (.vertex v) :: (m.exitActions v).map (.act (.exit v)) := by
  obtain ⟨record, hrec⟩ := Option.isSome_iff_exists.mp hv
  cases hf : record.form <;> simp [leaveVertex, regionsOf, exitActions, hrec, hf, Vertex.regions, Vertex.state?]

theorem endEnterPseudo_cases (m : Model μ δ) (v : VertexId) :
    m.endEnterPseudo v = [] ∧ (m.isInitial v = true → m.outgoing v = []) ∨
      ∃ t rest, m.isInitial v = true ∧ m.outgoing v = t :: rest ∧ m.endEnterPseudo v = [.traverse t] := by
  unfold endEnterPseudo
  split
  case isTrue hi => cases m.outgoing v <;> simp [hi]
  case isFalse hi => exact Or.inl ⟨rfl, fun h => absurd h hi⟩

theorem endEnterRegion_eq (hp : m.head? r = none ∨ plainly r = false) :
    m.endEnterRegion plainly r = [.enterRegion r (m.head? r) (m.headKind? r)] := by
  unfold endEnterRegion headKind?
  cases hv : m.head? r with
  | none => rfl
  | some v => simp [hp.resolve_left (by simp [hv])]

theorem endEnterRegion_cases (m : Model μ δ) (plainly : RegionId → Bool) (r : RegionId) :
    m.endEnterRegion plainly r = [.enterRegion r (m.head? r) (m.headKind? r)] ∨
      ∃ v, m.head? r = some v ∧ plainly r = true ∧
        m.endEnterRegion plainly r = m.beginEnterVertex v ++ m.endEnterPseudo v := by
  cases hv : m.head? r with
  | none => exact Or.inl (hv ▸ endEnterRegion_eq (Or.inl hv))
  | some v =>
    cases hplain : plainly r with
    | false => exact Or.inl (hv ▸ endEnterRegion_eq (Or.inr hplain))
    | true => exact Or.inr ⟨v, rfl, rfl, by simp [endEnterRegion, hv, hplain]⟩

theorem endEnterVertex_eq (m : Model μ δ) (plainly : RegionId → Bool) (v : VertexId) : m.endEnterVertex plainly v =
    m.endEnterPseudo v ++ (m.regionsOf v).flatMap fun r => beginEnterRegion r ++ m.endEnterRegion plainly r := by
  cases hrec : m.vertex? v with
  | none => simp [endEnterVertex, endEnterPseudo, isInitial, regionsOf, hrec]
  | some record =>
    cases hf : record.form with
    | pseudo kind => simp [endEnterVertex, regionsOf, Vertex.regions, hrec, hf]
    | state content =>
      simp [endEnterVertex, endEnterPseudo, isInitial, Vertex.isInitial, Vertex.pseudoKind?, regionsOf, Vertex.regions,
        hrec, hf]

/-! ## The steps of sequences -/

/-- A step by which a vertex in `V` begins to be entered. -/
inductive Beginning (m : Model μ δ) (V : VertexId → Prop) : Step μ δ → Prop
  | announce {v : VertexId} (hv : V v) : Beginning m V (.announceEnter (.vertex v))
  | act {v : VertexId} {a : Action μ δ} (ha : a ∈ m.entryActions v) : Beginning m V (.act (.entry v) a)
  | record {v : VertexId} {r : RegionId} (hv : V v) (hs : m.isState v = true) (hp : m.parent? v = some r) :
      Beginning m V (.record r v)
  | terminate {v : VertexId} (hv : V v) (hk : m.kind? v = some .terminate) : Beginning m V .terminate

/-- A step of an arrival: it begins to enter nothing but vertices in `V`, and so do the regions that it enters. -/
inductive Arriving (m : Model μ δ) (V : VertexId → Prop) : Step μ δ → Prop
  | begin {s : Step μ δ} (hs : m.Beginning V s) : Arriving m V s
  | region (r : RegionId) : Arriving m V (.announceEnter (.region r))
  | enter {r : RegionId} (hr : (m.region? r).isSome) (hV : ∀ v, m.parent? v = some r → V v) :
      Arriving m V (.enterRegion r (m.head? r) (m.headKind? r))
  | traverse {v : VertexId} {t : TransitionId} (hv : V v) (hi : m.isInitial v = true) (ht : t ∈ m.outgoing v) :
      Arriving m V (.traverse t)
  | act {t : TransitionId} {record : Transition μ δ} {a : Action μ δ} (hrec : m.transition? t = some record)
      (ha : a ∈ record.effects) : Arriving m V (.act (.effect t) a)

inductive Departing (m : Model μ δ) (v : VertexId) : Step μ δ → Prop
  | leave {r : RegionId} (hr : r ∈ m.regionsOf v) : Departing m v (.leaveRegion r)
  | region (r : RegionId) : Departing m v (.announceLeave (.region r))
  | vertex : Departing m v (.announceLeave (.vertex v))
  | act {a : Action μ δ} (ha : a ∈ m.exitActions v) : Departing m v (.act (.exit v) a)

/-- A step of a traversal: some vertex is left, or else the transition arrives. -/
def Moving (m : Model μ δ) (V : VertexId → Prop) (s : Step μ δ) : Prop := (∃ v, m.Departing v s) ∨ m.Arriving V s

theorem Beginning.isBrief (hs : m.Beginning V s) : s.IsBrief := by cases hs <;> trivial

theorem beginning_beginEnterVertex (hv : V v) : ∀ s ∈ m.beginEnterVertex v, m.Beginning V s := by
  intro s hs
  unfold beginEnterVertex at hs
  cases hrec : m.vertex? v with
  | none => simp [hrec] at hs
  | some record =>
    cases hf : record.form with
    | pseudo kind =>
      simp only [hrec, hf, List.mem_cons] at hs
      rcases hs with rfl | hs
      · exact .announce hv
      · split at hs
        case isTrue hkind =>
          obtain rfl := List.mem_singleton.mp hs
          exact .terminate hv (kind?_eq_some.mpr ⟨record, hrec, by rw [hf, hkind]⟩)
        case isFalse => cases hs
    | state content =>
      simp only [hrec, hf, List.mem_append, List.mem_cons, List.mem_map] at hs
      rcases hs with (rfl | ⟨a, ha, rfl⟩) | hs
      · exact .announce hv
      · exact .act (v := v) (by simpa [Model.entryActions, hrec, Vertex.state?, hf] using ha)
      · cases hp : record.parent with
        | none => simp [hp] at hs
        | some r =>
          simp only [hp, List.mem_singleton] at hs
          subst hs
          exact .record hv (isState_iff.mpr ⟨record, content, hrec, hf⟩) (parent?_eq_some.mpr ⟨record, hrec, hp⟩)

theorem isBrief_beginEnterVertex (v : VertexId) : ∀ s ∈ m.beginEnterVertex v, s.IsBrief := fun s hs =>
  (beginning_beginEnterVertex (V := fun _ => True) trivial s hs).isBrief

theorem departing_leaveRegion (hr : r ∈ m.regionsOf v) : ∀ s ∈ leaveRegion r, m.Departing v s := by
  intro s hs
  simp only [leaveRegion, List.mem_cons, List.not_mem_nil, or_false] at hs
  rcases hs with rfl | rfl
  · exact .leave hr
  · exact .region r

theorem departing_leaveVertex (v : VertexId) : ∀ s ∈ m.leaveVertex v, m.Departing v s := by
  intro s hs
  cases hrec : m.vertex? v with
  | none => simp [leaveVertex, hrec] at hs
  | some record =>
    rw [leaveVertex_eq (by simp [hrec]), List.mem_append, List.mem_flatMap, List.mem_cons, List.mem_map] at hs
    rcases hs with ⟨r, hr, hs⟩ | rfl | ⟨a, ha, rfl⟩
    · exact departing_leaveRegion hr s hs
    · exact .vertex
    · exact .act ha

theorem exists_effect_of_mem (hs : s ∈ m.effectsOf t) :
    ∃ record, m.transition? t = some record ∧ ∃ a ∈ record.effects, s = .act (.effect t) a := by
  unfold effectsOf at hs
  cases hrec : m.transition? t with
  | none => simp [hrec] at hs
  | some record =>
    simp only [hrec, Option.map_some, Option.getD_some, List.mem_map] at hs
    obtain ⟨a, ha, rfl⟩ := hs
    exact ⟨record, rfl, a, ha, rfl⟩

theorem arriving_effectsOf (t : TransitionId) : ∀ s ∈ m.effectsOf t, m.Arriving V s := by
  intro s hs
  obtain ⟨record, hrec, a, ha, rfl⟩ := exists_effect_of_mem hs
  exact .act hrec ha

theorem arriving_endEnterPseudo (hv : V v) : ∀ s ∈ m.endEnterPseudo v, m.Arriving V s := by
  intro s hs
  rcases endEnterPseudo_cases m v with ⟨heq, _⟩ | ⟨t, rest, hi, ho, heq⟩
  · rw [heq] at hs
    cases hs
  · rw [heq, List.mem_singleton] at hs
    exact hs ▸ .traverse hv hi (by simp [ho])

def Hereditary (m : Model μ δ) (V : VertexId → Prop) : Prop :=
  ∀ {v r o}, m.parent? v = some r → m.owner? r = some o → V o → V v

section
variable (h : m.Arena)
include h

theorem region?_isSome_of_mem (hr : r ∈ m.regionsOf v) : (m.region? r).isSome := by
  obtain ⟨region, hreg, _⟩ := owner?_eq_some.mp (h.mem_regionsOf.mp hr)
  simp [hreg]

theorem region?_isSome_of_parent? (hv : m.parent? v = some r) : (m.region? r).isSome := by
  obtain ⟨o, ho⟩ := h.owner?_of_parent? hv
  exact region?_isSome_of_mem h (h.mem_regionsOf.mpr ho)

theorem parent?_of_head? (hv : m.head? r = some v) : m.parent? v = some r :=
  h.mem_verticesOf.mp (List.mem_of_find?_eq_some hv)

theorem Hereditary.members (hV : m.Hereditary V) (hv : V v) (hr : r ∈ m.regionsOf v) :
    ∀ w, m.parent? w = some r → V w := fun _ hw => hV hw (h.mem_regionsOf.mp hr) hv

theorem arriving_endEnterRegion (hr : (m.region? r).isSome) (hV : ∀ v, m.parent? v = some r → V v) :
    ∀ s ∈ m.endEnterRegion plainly r, m.Arriving V s := by
  intro s hs
  rcases endEnterRegion_cases m plainly r with heq | ⟨v, hv, _, heq⟩
  · rw [heq, List.mem_singleton] at hs
    exact hs ▸ .enter hr hV
  · have hv := hV v (parent?_of_head? h hv)
    rw [heq, List.mem_append] at hs
    exact hs.elim (fun hs => .begin (beginning_beginEnterVertex hv s hs)) (arriving_endEnterPseudo hv s)

variable (hV : m.Hereditary V)
include hV

theorem arriving_endEnterVertex (hv : V v) : ∀ s ∈ m.endEnterVertex plainly v, m.Arriving V s := by
  intro s hs
  rw [endEnterVertex_eq, List.mem_append, List.mem_flatMap] at hs
  rcases hs with hs | ⟨r, hr, hs⟩
  · exact arriving_endEnterPseudo hv s hs
  · rcases List.mem_cons.mp hs with rfl | hs
    · exact .region r
    · exact arriving_endEnterRegion h (region?_isSome_of_mem h hr) (hV.members h hv hr) s hs

theorem arriving_cascade {l : List VertexId} (hl : ∀ v ∈ l, V v) : ∀ s ∈ m.cascade plainly l, m.Arriving V s := by
  induction l with
  | nil => nofun
  | cons v l ih =>
    have hv : V v := hl v List.mem_cons_self
    have hbegin : ∀ s ∈ m.beginEnterVertex v, m.Arriving V s := fun s hs => .begin (beginning_beginEnterVertex hv s hs)
    cases l with
    | nil => exact hbegin
    | cons w rest =>
      intro s hs
      simp only [cascade, List.mem_append, List.mem_flatMap, beginEnterRegion, List.mem_singleton] at hs
      rcases hs with (hs | ⟨r, hr, rfl | hs⟩) | hs
      · exact hbegin s hs
      · exact .region r
      · -- The region that the chain goes on in is announced, and nothing more of it is entered here.
        split at hs
        · cases hs
        · exact arriving_endEnterRegion h (region?_isSome_of_mem h hr) (hV.members h hv hr) s hs
      · exact ih (fun w hw => hl w (List.mem_cons_of_mem v hw)) s hs

theorem arriving_arrival (t : TransitionId) {l : List VertexId} {u : VertexId} (hl : ∀ v ∈ l, V v) (hu : V u) :
    ∀ s ∈ m.arrival plainly t l u, m.Arriving V s := by
  intro s hs
  rw [arrival, List.mem_append, List.mem_append] at hs
  rcases hs with (hs | hs) | hs
  · exact arriving_effectsOf t s hs
  · exact arriving_cascade h hV hl s hs
  · exact arriving_endEnterVertex h hV hu s hs

omit hV in
theorem arriving_onInitialise : ∀ s ∈ (m.compileWith plainly).onInitialise, m.Arriving (fun _ => True) s := fun s hs =>
  (List.mem_append.mp hs).elim (fun hs => .begin (beginning_beginEnterVertex trivial s hs))
    (arriving_endEnterVertex h (fun _ _ _ => trivial) trivial s)

end

end Model

end Statechart
