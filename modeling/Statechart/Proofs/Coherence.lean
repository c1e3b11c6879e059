import Mathlib.Data.List.Chain
import Mathlib.Data.List.Nodup
import Mathlib.Data.List.Count
import Statechart.Proofs.Chains
import Statechart.Proofs.Construction

/-!
# Coherent models

Whatever building operations are applied to a new machine, the links of its model agree with each other. Regions and
vertices form a tree that grows downwards in the course of time, siblings differ in name, and each vertex lists its
transitions in the order of their creation.
-/

namespace Statechart

variable {μ δ : Type}

namespace Model

def incoming (m : Model μ δ) (v : VertexId) : List TransitionId := ((m.vertex? v).map (·.incoming)).getD []

variable {m m' : Model μ δ}

/-! ## Names and lists of transitions -/

/-- Siblings differ in name, and vertices list their transitions in order. -/
structure Orderly (m : Model μ δ) : Prop where
  outgoing : ∀ v, m.outgoing v = m.transitionIds.filter fun t => m.source? t = some v
  incoming : ∀ v, m.incoming v = m.transitionIds.filter fun t => m.target? t = some v
  names : ∀ {v w r}, m.parent? v = some r → m.parent? w = some r → m.name? v = m.name? w → v = w

theorem map_vertex?_modifyVertex {α : Type} {f : Vertex μ δ → Vertex μ δ} {g : Vertex μ δ → α}
    (hg : ∀ record, g (f record) = g record) (id v : VertexId) :
    ((m.modifyVertex id f).vertex? v).map g = (m.vertex? v).map g := by
  rw [vertex?_modifyVertex]
  split
  · cases m.vertex? v <;> simp [hg]
  · rfl

theorem parent?_of_map (hp : ∀ v, (m'.vertex? v).map (·.parent) = (m.vertex? v).map (·.parent)) (v : VertexId) :
    m'.parent? v = m.parent? v := by
  have := hp v
  unfold parent?
  cases hv : m.vertex? v <;> cases hv' : m'.vertex? v <;> simp_all

theorem Orderly.congr (h : m.Orderly) (hout : ∀ v, (m'.vertex? v).map (·.outgoing) = (m.vertex? v).map (·.outgoing))
    (hin : ∀ v, (m'.vertex? v).map (·.incoming) = (m.vertex? v).map (·.incoming))
    (hids : m'.transitions.size = m.transitions.size) (hs : ∀ t, m'.source? t = m.source? t)
    (ht : ∀ t, m'.target? t = m.target? t)
    (hn : ∀ {v w r}, m'.parent? v = some r → m'.parent? w = some r → m'.name? v = m'.name? w → v = w) : m'.Orderly where
  outgoing v := by
    simp only [Model.outgoing, transitionIds, hout, hids, hs]
    exact h.outgoing v
  incoming v := by
    simp only [Model.incoming, transitionIds, hin, hids, ht]
    exact h.incoming v
  names := hn

theorem Orderly.modifyState (h : m.Orderly) (id : VertexId) (f : State μ δ → State μ δ) :
    (m.modifyState id f).Orderly := by
  have hform : ∀ {α : Type} (g : Vertex μ δ → α), (∀ record form, g { record with form } = g record) → ∀ v,
      ((m.modifyState id f).vertex? v).map g = (m.vertex? v).map g := by
    intro α g hg v
    refine map_vertex?_modifyVertex (fun record => ?_) id v
    cases hf : record.form with
    | state content => simp [hg]
    | pseudo kind => simp
  have hp := parent?_of_map (hform (·.parent) fun _ _ => rfl)
  have hn : ∀ v, (m.modifyState id f).name? v = m.name? v := hform (·.name) fun _ _ => rfl
  refine h.congr (hform _ fun _ _ => rfl) (hform _ fun _ _ => rfl) rfl (fun _ => rfl) (fun _ => rfl) ?_
  intro v w r hv hw hname
  rw [hp] at hv hw
  rw [hn, hn] at hname
  exact h.names hv hw hname

theorem Orderly.rename (h : m.Orderly) (id : VertexId) (name : String)
    (hnew : ∀ r w, m.parent? id = some r → m.parent? w = some r → w ≠ id → m.name? w ≠ some name) :
    (m.modifyVertex id fun record => { record with name }).Orderly := by
  have hmap : ∀ {α : Type} (g : Vertex μ δ → α), (∀ record, g { record with name } = g record) → ∀ v,
      ((m.modifyVertex id fun record => { record with name }).vertex? v).map g = (m.vertex? v).map g :=
    fun _ hg => map_vertex?_modifyVertex hg id
  have hp := parent?_of_map (hmap (·.parent) fun _ => rfl)
  have hid : ∀ v r, m.parent? v = some r → v = id →
      (m.modifyVertex id fun record => { record with name }).name? v = some name := by
    rintro v r hv rfl
    obtain ⟨record, hrec, _⟩ := parent?_eq_some.mp hv
    simp [name?, vertex?_modifyVertex, hrec]
  have hother : ∀ v, v ≠ id → (m.modifyVertex id fun record => { record with name }).name? v = m.name? v := by
    intro v hv
    simp [name?, vertex?_modifyVertex, hv]
  refine h.congr (hmap _ fun _ => rfl) (hmap _ fun _ => rfl) rfl (fun _ => rfl) (fun _ => rfl) ?_
  intro v w r hv hw hname
  rw [hp] at hv hw
  -- At most one of two siblings of one name is the renamed one, and its name was not taken.
  by_cases hvi : v = id
  · by_cases hwi : w = id
    · rw [hvi, hwi]
    · rw [hid v r hv hvi, hother w hwi] at hname
      exact absurd hname.symm (hnew r w (hvi ▸ hv) hw hwi)
  · by_cases hwi : w = id
    · rw [hother v hvi, hid w r hw hwi] at hname
      exact absurd hname (hnew r v (hwi ▸ hw) hv hvi)
    · rw [hother v hvi, hother w hwi] at hname
      exact h.names hv hw hname

theorem Orderly.pushVertex (h : m.Orderly) {r : RegionId} (name : String) (form : Form μ δ)
    (hnew : ∀ w, m.parent? w = some r → m.name? w ≠ some name) : (m.pushVertex r name form).Orderly := by
  have hv := fun v => vertex?_pushVertex (m := m) r name form v
  have hold : ∀ {v q}, (m.pushVertex r name form).parent? v = some q → v ≠ ⟨m.vertices.size⟩ →
      m.parent? v = some q ∧ (m.pushVertex r name form).name? v = m.name? v := by
    intro v q hp hne
    unfold parent? name? at *
    rw [hv, if_neg hne] at hp ⊢
    exact ⟨hp, rfl⟩
  have hlast : ∀ {v q}, (m.pushVertex r name form).parent? v = some q → v = ⟨m.vertices.size⟩ →
      q = r ∧ (m.pushVertex r name form).name? v = some name := by
    rintro _ q hp rfl
    unfold parent? name? at *
    rw [hv, if_pos rfl] at hp ⊢
    exact ⟨(Option.some.inj hp).symm, rfl⟩
  constructor
  · intro v
    refine Eq.trans ?_ (h.outgoing v)
    simp only [Model.outgoing, hv]
    split
    · rename_i hnew; subst hnew; simp [vertex?_size]
    · rfl
  · intro v
    refine Eq.trans ?_ (h.incoming v)
    simp only [Model.incoming, hv]
    split
    · rename_i hnew; subst hnew; simp [vertex?_size]
    · rfl
  · -- Of two vertices of one name at most one is new, and then its name was not taken.
    intro v w q hpv hpw hname
    by_cases hvn : v = ⟨m.vertices.size⟩
    · by_cases hwn : w = ⟨m.vertices.size⟩
      · rw [hvn, hwn]
      · obtain ⟨rfl, hnv⟩ := hlast hpv hvn
        obtain ⟨hpw', hnw⟩ := hold hpw hwn
        rw [hnv, hnw] at hname
        exact absurd hname.symm (hnew w hpw')
    · obtain ⟨hpv', hnv⟩ := hold hpv hvn
      by_cases hwn : w = ⟨m.vertices.size⟩
      · obtain ⟨rfl, hnw⟩ := hlast hpw hwn
        rw [hnv, hnw] at hname
        exact absurd hname (hnew v hpv')
      · obtain ⟨hpw', hnw⟩ := hold hpw hwn
        rw [hnv, hnw] at hname
        exact h.names hpv' hpw' hname

theorem transitionIds_pushTransition (t : Transition μ δ) :
    (m.pushTransition t).transitionIds = m.transitionIds ++ [⟨m.transitions.size⟩] := by
  have : (m.pushTransition t).transitions = m.transitions.push t := by
    unfold Model.pushTransition; cases t.target <;> rfl
  simp [transitionIds, this, List.range_succ]

theorem filter_transitionIds_pushTransition {t : Transition μ δ} {p p' : TransitionId → Bool}
    (hp : ∀ id, id ≠ ⟨m.transitions.size⟩ → p' id = p id) :
    (m.pushTransition t).transitionIds.filter p' =
      m.transitionIds.filter p ++ if p' ⟨m.transitions.size⟩ then [⟨m.transitions.size⟩] else [] := by
  rw [transitionIds_pushTransition, List.filter_append]
  congr 1
  · refine List.filter_congr fun id hid => hp id ?_
    rintro rfl
    simp [transitionIds] at hid
  · simp [List.filter_cons]

theorem incoming_pushTransition {t : Transition μ δ} (ht : ∀ u, t.target = some u → (m.vertex? u).isSome)
    (v : VertexId) : (m.pushTransition t).incoming v =
      if t.target = some v then m.incoming v ++ [⟨m.transitions.size⟩] else m.incoming v := by
  have hv : ({ m with transitions := m.transitions.push t } : Model μ δ).vertex? v = m.vertex? v := rfl
  unfold Model.incoming Model.pushTransition
  cases htarget : t.target with
  | none =>
    simp only [vertex?_modifyVertex, hv]
    split
    · cases m.vertex? v <;> rfl
    · rfl
  | some u =>
    simp only [vertex?_modifyVertex, hv, Option.some.injEq]
    by_cases hu : v = u
    · obtain ⟨record, hrec⟩ := Option.isSome_iff_exists.mp (ht u htarget)
      rw [if_pos hu, if_pos hu.symm, hu, hrec]
      split <;> rfl
    · rw [if_neg hu, if_neg (Ne.symm hu)]
      split
      · cases m.vertex? v <;> rfl
      · rfl

theorem Orderly.pushTransition (h : m.Orderly) {t : Transition μ δ} (hs : (m.vertex? t.source).isSome)
    (ht : ∀ u, t.target = some u → (m.vertex? u).isSome) : (m.pushTransition t).Orderly := by
  have htr := transition?_pushTransition (m := m) t
  have hv := vertex?_pushTransition (m := m) t
  constructor
  · intro v
    rw [filter_transitionIds_pushTransition (p := fun id => m.source? id = some v), ← h.outgoing v]
    · obtain ⟨incoming, hvertex⟩ := hv v
      simp only [Model.outgoing, hvertex, source?, htr, ite_true, Option.map_some, Option.some.injEq]
      by_cases hvs : v = t.source
      · subst hvs
        obtain ⟨record, hrec⟩ := Option.isSome_iff_exists.mp hs
        simp [hrec]
      · cases m.vertex? v <;> simp [hvs, Ne.symm hvs]
    · intro id hid; simp [source?, htr, hid]
  · intro v
    rw [filter_transitionIds_pushTransition (p := fun id => m.target? id = some v), ← h.incoming v,
      incoming_pushTransition ht]
    · simp only [target?, htr, ite_true, Option.bind_some]
      by_cases htarget : t.target = some v <;> simp [htarget]
    · intro id hid
      have : (m.pushTransition t).target? id = m.target? id := by unfold target?; rw [htr, if_neg hid]
      rw [this]
  · intro v w r hpv hpw hname
    have hp : ∀ v, (m.pushTransition t).parent? v = m.parent? v := by
      intro v; obtain ⟨incoming, hvertex⟩ := hv v
      unfold parent?; rw [hvertex]; cases m.vertex? v <;> rfl
    have hn : ∀ v, (m.pushTransition t).name? v = m.name? v := by
      intro v; obtain ⟨incoming, hvertex⟩ := hv v
      unfold name?; rw [hvertex]; cases m.vertex? v <;> rfl
    rw [hp] at hpv hpw
    rw [hn, hn] at hname
    exact h.names hpv hpw hname

theorem Orderly.change {A : Action μ δ → Prop} (h : m.Orderly) (hc : Change A m m') : m'.Orderly := by
  cases hc with
  | @region s name _ =>
    have := h.modifyState s fun content => { content with regions := content.regions ++ [⟨m.regions.size⟩] }
    exact ⟨this.outgoing, this.incoming, this.names⟩
  | vertex name form _ hn _ => exact h.pushVertex name form hn
  | name v name hn => exact h.rename v name hn
  | entry s _ => exact h.modifyState s _
  | exit s _ => exact h.modifyState s _
  | transition hs hu _ _ => exact h.pushTransition hs hu
  | effect t _ =>
    refine h.congr (fun _ => rfl) (fun _ => rfl) (by simp) (fun id => ?_) (fun id => ?_) h.names
    · unfold source?; rw [transition?_modify]; split
      · cases m.transition? id <;> rfl
      · rfl
    · unfold target?; rw [transition?_modify]; split
      · cases m.transition? id <;> rfl
      · rfl

theorem orderly_ofName (name : String) : (ofName name : Model μ δ).Orderly := by
  have hids : (ofName name : Model μ δ).transitionIds = [] := rfl
  constructor
  · intro v; rw [hids]; unfold Model.outgoing vertex? ofName
    cases v with
    | mk index => cases index <;> simp
  · intro v; rw [hids]; unfold Model.incoming vertex? ofName
    cases v with
    | mk index => cases index <;> simp
  · intro v w r hv
    obtain ⟨record, hrec, hp⟩ := parent?_eq_some.mp hv
    have hmem : record ∈ (ofName name : Model μ δ).vertices := Array.mem_of_getElem? hrec
    simp only [ofName, List.mem_toArray, List.mem_singleton] at hmem
    subst hmem; cases hp

/-! ## Ancestors -/

def Owns (m : Model μ δ) : Element → Element → Prop
  | .vertex o, .region r => m.owner? r = some o
  | .region r, .vertex v => m.parent? v = some r
  | _, _ => False

/-- The list goes from member to member, and from the root down to `v`. -/
structure Lineage (m : Model μ δ) (v : VertexId) (l : List Element) : Prop where
  head : l.head? = some (.vertex root)
  last : l.getLast? = some (.vertex v)
  chain : l.IsChain m.Owns

theorem Lineage.snoc {o v : VertexId} {r : RegionId} {l : List Element} (hl : m.Lineage o l)
    (hv : m.parent? v = some r) (ho : m.owner? r = some o) : m.Lineage v (l ++ [.region r, .vertex v]) where
  head := by
    cases l with
    | nil => cases hl.head
    | cons e l => exact hl.head
  last := by simp
  chain := by
    refine hl.chain.append (.cons_cons hv (.singleton _)) ?_
    · intro e he e' he'
      rw [hl.last] at he
      cases he; cases he'; exact ho

theorem lineage_ancestors (h : m.Arena) (v : VertexId) (hv : (m.vertex? v).isSome) :
    ∃ l, m.ancestors? v = some l ∧ m.Lineage v l := by
  refine h.induction (motive := fun v => ∃ l, m.ancestors? v = some l ∧ m.Lineage v l) ?_ ?_ v hv
  · refine ⟨[.vertex root], ?_, rfl, rfl, List.IsChain.singleton _⟩
    simp [ancestors?, path?_isSome h h.vertex?_root_isSome, path_root h]
  · rintro v r o hp ho ⟨l, hl, hlineage⟩
    refine ⟨l ++ [.region r, .vertex v], ?_, hlineage.snoc hp ho⟩
    have ho' := vertex?_isSome_of_isState (h.isState_of_owner? ho)
    simp only [ancestors?, path?_isSome h ho', Option.map_some, Option.some.injEq] at hl
    simp only [ancestors?, path?_isSome h (vertex?_isSome_of_parent? hp), path_eq h hp ho, Option.map_some,
      List.flatMap_append, ← hl]
    simp

/-! ## Coherence -/

/-- All links of the model agree with each other. -/
structure Coherent (m : Model μ δ) : Prop where
  isState_root : m.isState root = true
  parent?_eq_none : ∀ {v}, (m.vertex? v).isSome → (m.parent? v = none ↔ v = root)
  /-- A region is listed once, by the state that is its parent. -/
  region : ∀ {r region}, m.region? r = some region → m.isState region.parent = true ∧
    ∀ v, (m.regionsOf v).count r = if v = region.parent then 1 else 0
  /-- A vertex other than the root is listed once, by the region that is its parent. -/
  vertex : ∀ {v record}, m.vertex? v = some record → ∀ r, (m.verticesOf r).count v =
    if record.parent = some r then 1 else 0
  regionsOf : ∀ {v r}, r ∈ m.regionsOf v → (m.region? r).isSome
  verticesOf : ∀ {r v}, v ∈ m.verticesOf r → (m.vertex? v).isSome
  owner?_lt : ∀ {v r o}, m.parent? v = some r → m.owner? r = some o → o.index < v.index
  ancestors : ∀ v, (m.vertex? v).isSome → ∃ l, m.ancestors? v = some l ∧ m.Lineage v l
  isAncestor_refl : ∀ {v}, (m.vertex? v).isSome → m.isAncestor v v = true
  isAncestor_trans : ∀ {x v w}, m.isAncestor x v = true → m.isAncestor v w = true → m.isAncestor x w = true
  isAncestor_antisymm : ∀ {x v}, m.isAncestor x v = true → m.isAncestor v x = true → x = v
  isAncestor_root : ∀ {v}, (m.vertex? v).isSome → m.isAncestor root v = true
  names : ∀ {v w r}, m.parent? v = some r → m.parent? w = some r → m.name? v = m.name? w → v = w
  outgoing : ∀ v, m.outgoing v = m.transitionIds.filter fun t => m.source? t = some v
  incoming : ∀ v, m.incoming v = m.transitionIds.filter fun t => m.target? t = some v
  source : ∀ {t record}, m.transition? t = some record → (m.vertex? record.source).isSome
  target : ∀ {t record u}, m.transition? t = some record → record.target = some u → (m.vertex? u).isSome
  internal_iff : ∀ {t record}, m.transition? t = some record → (record.kind = .internal ↔ record.target = none)

theorem count_eq_of_mem {α : Type} [BEq α] [LawfulBEq α] {l : List α} {a : α} {p : Prop} [Decidable p]
    (hl : l.Nodup) (hp : a ∈ l ↔ p) : l.count a = if p then 1 else 0 := by
  by_cases ha : a ∈ l
  · rw [if_pos (hp.mp ha)]
    exact List.count_eq_one_of_mem hl ha
  · rw [if_neg (mt hp.mpr ha)]
    exact List.count_eq_zero_of_not_mem ha

theorem Arena.coherent (h : m.Arena) (ho : m.Orderly) : m.Coherent where
  isState_root := h.isState_root
  parent?_eq_none {v} hv := by
    constructor
    · intro hp; by_contra hne
      have := h.parent?_of_ne hv hne
      rw [hp] at this; cases this
    · rintro rfl; exact h.parent?_root
  region {r region} hr := by
    have hown : m.owner? r = some region.parent := owner?_eq_some.mpr ⟨region, hr, rfl⟩
    refine ⟨h.isState_of_owner? hown, fun v => count_eq_of_mem (h.nodup_regionsOf v) ?_⟩
    rw [h.mem_regionsOf, hown, Option.some.injEq, eq_comm]
  vertex {v record} hv r := by
    refine count_eq_of_mem (h.nodup_verticesOf r) ?_
    rw [h.mem_verticesOf, parent?, hv, Option.bind_some]
  regionsOf {v r} hr := by
    obtain ⟨region, hreg, _⟩ := owner?_eq_some.mp (h.mem_regionsOf.mp hr)
    rw [hreg]; rfl
  verticesOf hv := vertex?_isSome_of_parent? (h.mem_verticesOf.mp hv)
  owner?_lt := h.owner?_lt
  ancestors := lineage_ancestors h
  isAncestor_refl := isAncestor_refl h
  isAncestor_trans := isAncestor_trans h
  isAncestor_antisymm := isAncestor_antisymm h
  isAncestor_root := isAncestor_root h
  names := ho.names
  outgoing := ho.outgoing
  incoming := ho.incoming
  source := h.source_isSome
  target := h.target_isSome
  internal_iff := h.internal_iff

/-! ## Owners in the course of time -/

theorem Change.owner? {A : Action μ δ → Prop} (hc : Change A m m') {r : RegionId} {o : VertexId}
    (hr : m.owner? r = some o) : m'.owner? r = some o := by
  cases hc with
  | region name _ =>
    rw [owner?_pushRegion, if_neg]
    · exact hr
    · rintro rfl; simp [Model.owner?, region?_size] at hr
  | vertex name form _ _ _ =>
    unfold Model.owner? at hr ⊢
    rw [region?_pushVertex]
    split
    · cases hreg : m.region? r <;> simp_all
    · exact hr
  | transition _ _ _ _ => unfold Model.owner?; rw [region?_pushTransition]; exact hr
  | _ => exact hr

theorem size_pushRegion (s : VertexId) (name : String) : (m.pushRegion s name).vertices.size = m.vertices.size := by
  simp [Model.pushRegion, Model.modifyState, modifyVertex]

theorem owner?_pushVertex {r : RegionId} (name : String) (form : Form μ δ) (q : RegionId) :
    (m.pushVertex r name form).owner? q = m.owner? q := by
  unfold Model.owner?; rw [region?_pushVertex]; split
  · cases m.region? q <;> rfl
  · rfl

end Model

namespace Build

/-! ## Owners and operations -/

def Sized (n : Nat) (m : Model μ δ) : Prop := m.vertices.size = n

def Owned (n : Nat) (m : Model μ δ) : Prop := ∀ r o, m.owner? r = some o → o.index < n

theorem owned_of_sized {n : Nat} {m : Machine μ δ} (hm : m.SoundWith (Sized n)) : Owned n m.toModel := by
  intro r o ho
  have := Model.vertex?_isSome_iff.mp (Model.vertex?_isSome_of_isState (hm.1.arena.isState_of_owner? ho))
  rwa [hm.2] at this

theorem sized_pushRegion (n : Nat) (m : Model μ δ) (s : VertexId) (name : String) (_ : m.Arena)
    (_ : m.isState s = true) (hm : Sized n m) : Sized n (m.pushRegion s name) :=
  (Model.size_pushRegion s name).trans hm

theorem owned_addVertex (n : Nat) (parent : Parent) (name : String) (form : Form μ δ) :
    Triple (Machine.SoundWith (Sized n)) (addVertex parent name form) (fun _ m => Owned n m.toModel)
      (fun _ m => Owned n m.toModel) := by
  -- The region may be made on the way, and its owner is known by then; the vertex itself owns nothing.
  have hregion : Triple (Machine.SoundWith (Sized n)) (regionOf parent)
      (fun _ (m : Machine μ δ) => m.SoundWith (Sized n)) (fun _ m => Owned n m.toModel) :=
    (regionOf_spec (sized_pushRegion n) parent).conseq (fun _ hm => hm) (fun _ _ hm => hm.1)
      (fun _ _ hm => owned_of_sized hm)
  refine Triple.bind hregion fun region => ?_
  refine Triple.bind (Triple.get (Q := fun _ m => m.SoundWith (Sized n)) fun m hm => hm) fun m' => ?_
  by_cases hn : (m'.vertexNamed? region name).isSome
  · simp only [hn, ite_true]
    exact Triple.throw_bind fun m hm => owned_of_sized hm
  · simp only [hn]
    refine Triple.bind (R := fun _ m => Owned n m.toModel) ?_ fun _ => Triple.pure fun _ hm => hm
    refine Triple.modify fun m hm r o ho => owned_of_sized hm r o ?_
    rwa [Model.owner?_pushVertex] at ho

def Regional (regions : Array Region) (b : Build μ δ Unit) : Prop :=
  Triple (·.regions = regions) b (fun _ m => m.regions = regions) (fun _ m => m.regions = regions)

theorem regional_onEntry (regions : Array Region) (owner : VertexId) (action : Action μ δ) :
    Regional regions (onEntry owner action) :=
  Triple.bind (state_spec _ owner) fun _ => Triple.modify fun _ hm => hm.1

theorem regional_onExit (regions : Array Region) (owner : VertexId) (action : Action μ δ) :
    Regional regions (onExit owner action) :=
  Triple.bind (state_spec _ owner) fun _ => Triple.modify fun _ hm => hm.1

theorem regional_addEffect (regions : Array Region) (t : TransitionId) (action : Action μ δ) :
    Regional regions (addEffect t action) := by
  refine Triple.bind (Triple.get (Q := fun _ m => m.regions = regions) fun m hm => hm) fun m' => ?_
  split
  · exact Triple.throw_bind fun m hm => hm
  · exact Triple.modify fun m hm => hm

theorem regional_rename (regions : Array Region) (v : VertexId) (name : String) :
    Regional (μ := μ) (δ := δ) regions (rename v name) := by
  refine Triple.bind (vertex_spec _ v) fun record => ?_
  refine Triple.bind (Triple.get (Q := fun _ m => m.regions = regions) fun m hm => hm.1) fun m' => ?_
  cases record.parent with
  | none => exact Triple.modify fun m hm => hm
  | some region =>
    simp only
    split
    · exact Triple.throw_bind fun m hm => hm
    · exact Triple.modify fun m hm => hm

theorem regional_addTransition (regions : Array Region) (d : Draft μ δ) :
    Regional regions (discard (addTransition d)) := by
  refine Triple.bind (R := fun _ m => m.regions = regions) ?_ fun _ => Triple.pure fun _ hm => hm
  refine Triple.bind ((vertex_spec _ d.source).conseq (fun _ hm => hm) (fun _ _ hm => hm.1) fun _ _ hm => hm)
    fun source => ?_
  have hpush : ∀ (t : Transition μ δ) (id : TransitionId),
      Triple (fun m : Machine μ δ => m.regions = regions) (do change (·.pushTransition t); pure id)
        (fun _ m => m.regions = regions) (fun _ m => m.regions = regions) := by
    intro t id
    refine Triple.bind (R := fun _ m => m.regions = regions) (Triple.modify fun m hm => ?_)
      fun _ => Triple.pure fun _ hm => hm
    unfold Model.pushTransition
    cases t.target <;> exact hm
  have hget : Triple (fun m : Machine μ δ => m.regions = regions) MonadState.get
      (fun _ m => m.regions = regions) (fun (_ : BuildError) m => m.regions = regions) := Triple.get fun m hm => hm
  cases ht : d.target with
  | none => exact Triple.bind hget fun _ => hpush _ _
  | some target =>
    refine Triple.bind ((vertex_spec _ target).conseq (fun _ hm => hm) (fun _ _ hm => hm.1) fun _ _ hm => hm)
      fun _ => Triple.bind hget fun m' => ?_
    by_cases hk : d.kind = .internal
    · simp only [hk, ite_true]
      by_cases hs : target = d.source
      · simp only [hs, ite_true]; exact hpush _ _
      · simp only [hs, ite_false]; exact Triple.throw_bind fun m hm => hm
    · simp only [hk, ite_false]; exact hpush _ _

theorem Regional.owned {b : Build μ δ Unit} (hb : ∀ regions, Regional regions b) (n : Nat) :
    Triple (Machine.SoundWith (Sized n)) b (fun _ m => Owned n m.toModel) (fun _ m => Owned n m.toModel) := by
  refine Triple.assume fun m hm => ?_
  have hkeep : ∀ m' : Machine μ δ, m'.regions = m.regions → Owned n m'.toModel := by
    intro m' heq r o ho
    refine owned_of_sized hm r o ?_
    rwa [Model.owner?, Model.region?, heq] at ho
  exact (hb m.regions).conseq (fun _ heq => heq ▸ rfl) (fun _ => hkeep) fun _ => hkeep

end Build

theorem Edit.owned (e : Edit μ δ) (n : Nat) : Triple (Machine.SoundWith (Build.Sized n)) e.perform
    (fun _ m => Build.Owned n m.toModel) (fun _ m => Build.Owned n m.toModel) := by
  cases e with
  | addRegion owner name =>
    refine Triple.bind (R := fun _ m => Build.Owned n m.toModel) ?_ fun _ => Triple.pure fun _ hm => hm
    exact (Build.addRegion_spec (Build.sized_pushRegion n) owner name).conseq (fun _ hm => hm)
      (fun _ _ hm => Build.owned_of_sized hm.1) fun _ _ hm => Build.owned_of_sized hm
  | defaultRegion owner =>
    refine Triple.bind (R := fun _ m => Build.Owned n m.toModel) ?_ fun _ => Triple.pure fun _ hm => hm
    exact (Build.defaultRegion_spec (Build.sized_pushRegion n) owner).conseq (fun _ hm => hm)
      (fun _ _ hm => Build.owned_of_sized hm.1) fun _ _ hm => Build.owned_of_sized hm
  | addState parent name =>
    exact Triple.bind (Build.owned_addVertex n parent name _) fun _ => Triple.pure fun _ hm => hm
  | addFinalState parent name =>
    exact Triple.bind (Build.owned_addVertex n parent name _) fun _ => Triple.pure fun _ hm => hm
  | addPseudoState parent name kind =>
    exact Triple.bind (Build.owned_addVertex n parent name _) fun _ => Triple.pure fun _ hm => hm
  | onEntry owner action => exact Build.Regional.owned (Build.regional_onEntry · owner action) n
  | onExit owner action => exact Build.Regional.owned (Build.regional_onExit · owner action) n
  | addTransition draft => exact Build.Regional.owned (Build.regional_addTransition · draft) n
  | addEffect transition action => exact Build.Regional.owned (Build.regional_addEffect · transition action) n
  | rename vertex name => exact Build.Regional.owned (Build.regional_rename · vertex name) n

theorem Edit.vertex?_isSome_of_owner? {m : Machine μ δ} (hm : m.Sound) (e : Edit μ δ) {r : RegionId} {o : VertexId}
    (ho : (e.apply m).owner? r = some o) : (m.vertex? o).isSome :=
  Model.vertex?_isSome_iff.mpr (Edit.apply_of_triple (e.owned m.vertices.size) ⟨hm, rfl⟩ r o ho)

namespace Machine

/-! ## Machines made by building operations -/

theorem edited_append (m : Machine μ δ) (earlier later : List (Edit μ δ)) :
    m.edited (earlier ++ later) = (m.edited earlier).edited later := List.foldl_append

theorem Sound.edited {m : Machine μ δ} (h : m.Sound) (edits : List (Edit μ δ)) : (m.edited edits).Sound := by
  induction edits generalizing m with
  | nil => exact h
  | cons e edits ih => exact ih (h.apply e)

theorem uses_any (edits : List (Edit μ δ)) : ∀ e ∈ edits, e.Uses fun _ => True :=
  fun e _ => by cases e <;> simp [Edit.Uses]

theorem orderly_edited (name : String) (edits : List (Edit μ δ)) : ((ofName name).edited edits).Orderly :=
  (SoundWith.edited (fun _ _ _ hc hm => hm.change hc) ⟨sound_ofName name, Model.orderly_ofName name⟩
    (uses_any edits)).2

theorem owner?_edited {m : Machine μ δ} (hm : m.Sound) (edits : List (Edit μ δ)) {r : RegionId} {o : VertexId}
    (hr : m.owner? r = some o) : (m.edited edits).owner? r = some o :=
  (SoundWith.edited (P := fun m => m.owner? r = some o) (fun _ _ _ hc hm => hc.owner? hm) ⟨hm, hr⟩ (uses_any edits)).2

theorem parent?_edited {m : Machine μ δ} (hm : m.Sound) (edits : List (Edit μ δ)) {v : VertexId} {r : RegionId}
    (hv : m.parent? v = some r) : (m.edited edits).parent? v = some r :=
  (SoundWith.edited (P := fun m => m.parent? v = some r) (fun _ _ _ hc hm => hc.parent? hm) ⟨hm, hv⟩
    (uses_any edits)).2

theorem owner_before {m : Machine μ δ} (hm : m.Sound) (e : Edit μ δ) (later : List (Edit μ δ)) {r : RegionId}
    {o : VertexId} (ho : ((e.apply m).edited later).owner? r = some o) (hr : ((e.apply m).region? r).isSome) :
    (m.vertex? o).isSome := by
  obtain ⟨region, hreg⟩ := Option.isSome_iff_exists.mp hr
  have hown : (e.apply m).owner? r = some region.parent := Model.owner?_eq_some.mpr ⟨region, hreg, rfl⟩
  have hfinal := owner?_edited (hm.apply e) later hown
  rw [ho] at hfinal
  rw [Option.some.inj hfinal]
  exact e.vertex?_isSome_of_owner? hm hown

theorem owner_before_member {m : Machine μ δ} (hm : m.Sound) (e : Edit μ δ) (later : List (Edit μ δ)) {v : VertexId}
    {r : RegionId} {o : VertexId} (hp : ((e.apply m).edited later).parent? v = some r)
    (ho : ((e.apply m).edited later).owner? r = some o) (hv : ((e.apply m).vertex? v).isSome) :
    (m.vertex? o).isSome := by
  have hne : v ≠ root := ((hm.apply e).edited later).arena.ne_root_of_parent? hp
  have harena := (hm.apply e).arena
  obtain ⟨q, hq⟩ := Option.isSome_iff_exists.mp (harena.parent?_of_ne hv hne)
  have hfinal := parent?_edited (hm.apply e) later hq
  rw [hp] at hfinal
  obtain ⟨o', ho'⟩ := harena.owner?_of_parent? hq
  obtain ⟨region, hreg, _⟩ := Model.owner?_eq_some.mp ho'
  refine owner_before hm e later ho ?_
  rw [Option.some.inj hfinal, hreg]; rfl

/-- Building operations, whatever their arguments and whether they succeed or fail, leave the model coherent, and make
nothing before its owner. -/
theorem coherent_edited (name : String) :
    (∀ edits : List (Edit μ δ), ((ofName name).edited edits).Coherent) ∧
    ∀ (earlier : List (Edit μ δ)) (e : Edit μ δ) (later : List (Edit μ δ)) (r : RegionId) (o : VertexId),
      ((ofName name).edited (earlier ++ e :: later)).owner? r = some o →
      ((((ofName name).edited (earlier ++ [e])).region? r).isSome → (((ofName name).edited earlier).vertex? o).isSome) ∧
      ∀ v, ((ofName name).edited (earlier ++ e :: later)).parent? v = some r →
        (((ofName name).edited (earlier ++ [e])).vertex? v).isSome →
        (((ofName name).edited earlier).vertex? o).isSome := by
  constructor
  · intro edits
    exact ((sound_ofName name).edited edits).arena.coherent (orderly_edited name edits)
  · intro earlier e later r o ho
    have hm := (sound_ofName (μ := μ) (δ := δ) name).edited earlier
    rw [edited_append] at ho
    refine ⟨fun hr => ?_, fun v hv hex => ?_⟩
    · rw [edited_append] at hr
      exact owner_before hm e later ho hr
    · rw [edited_append] at hv hex
      exact owner_before_member hm e later hv ho hex

theorem coherent_edited_drawer :
    ((ofName "desk" : Machine Unit Unit).edited
      [.addState (.state root) "drawer", .addState (.state ⟨1⟩) "box"]).Coherent ∧
    (((ofName "desk" : Machine Unit Unit).edited [.addState (.state root) "drawer"]).vertex? ⟨1⟩).isSome :=
  ⟨(coherent_edited "desk").1 _,
    ((coherent_edited "desk").2 [.addState (.state root) "drawer"] (.addState (.state ⟨1⟩) "box") [] ⟨1⟩ ⟨1⟩
      (by decide +kernel)).1 (by decide +kernel)⟩

end Machine

end Statechart
