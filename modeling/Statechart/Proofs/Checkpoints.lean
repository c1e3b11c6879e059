import Statechart.Proofs.Coherence
import Statechart.Proofs.Confinement

/-!
# Snapshots bring back what they have captured

An element is known by the names on the way to it from the root. Where siblings differ in name, what a snapshot has
captured is found again by its names, in the same model or in another that has the same names in the same places.
-/

namespace Statechart

variable {μ δ : Type}

namespace Model

/-! ## Paths of names -/

/-- The names from the root down to an element. -/
def names? (m : Model μ δ) (e : Element) : Option (List String) := (m.lineage? e).bind (·.mapM m.elementName?)

def NamesRegions (m : Model μ δ) : Prop :=
  ∀ v ∈ m.vertexIds, ((m.regionsOf v).map fun r => m.elementName? (.region r)).Nodup

instance decidableNamesRegions (m : Model μ δ) : Decidable m.NamesRegions :=
  inferInstanceAs (Decidable (∀ v ∈ m.vertexIds, _))

/-- The two models have the same names in the same places, whatever their identities and their order. -/
structure Rebuilt (m m' : Model μ δ) : Prop where
  vertices : (m.vertexIds.map fun v => m.names? (.vertex v)).Perm (m'.vertexIds.map fun v => m'.names? (.vertex v))
  regions : (m.regionIds.map fun r => m.names? (.region r)).Perm (m'.regionIds.map fun r => m'.names? (.region r))

def Twin (m m' : Model μ δ) (e e' : Element) : Prop := (m.names? e).isSome ∧ m'.names? e' = m.names? e

variable {m m' : Model μ δ}

theorem Rebuilt.refl (m : Model μ δ) : m.Rebuilt m := ⟨.refl _, .refl _⟩

theorem mem_regionIds {r : RegionId} : r ∈ m.regionIds ↔ (m.region? r).isSome := by
  cases r; simp [regionIds, region?]

theorem mem_regionIds_of_owner? {r : RegionId} {o : VertexId} (ho : m.owner? r = some o) : r ∈ m.regionIds := by
  obtain ⟨region, hreg, _⟩ := owner?_eq_some.mp ho
  simp [mem_regionIds, hreg]

section
variable (h : m.Arena)
include h

theorem ancestors?_eq {v o : VertexId} {r : RegionId} (hv : m.parent? v = some r) (ho : m.owner? r = some o) :
    m.ancestors? v = (m.ancestors? o).map (· ++ [.region r, .vertex v]) := by
  have hknown := vertex?_isSome_of_isState (h.isState_of_owner? ho)
  simp only [ancestors?, path?_isSome h hknown, path?_isSome h (vertex?_isSome_of_parent? hv), path_eq h hv ho,
    Option.map_some, List.flatMap_append]
  simp

theorem lineage?_of_owns {e e' : Element} (ho : m.Owns e e') : m.lineage? e' = (m.lineage? e).map (· ++ [e']) := by
  cases e with
  | vertex o =>
    cases e' with
    | vertex v => exact ho.elim
    | region r =>
      obtain ⟨region, hreg, rfl⟩ := owner?_eq_some.mp ho
      simp [lineage?, hreg]
  | region r =>
    cases e' with
    | region q => exact ho.elim
    | vertex v =>
      obtain ⟨o, hr⟩ := h.owner?_of_parent? ho
      obtain ⟨region, hreg, rfl⟩ := owner?_eq_some.mp hr
      have hown : m.ancestors? v = _ := ancestors?_eq h ho hr
      simp [lineage?, hreg, hown, Function.comp_def]

theorem names?_of_owns {e e' : Element} (ho : m.Owns e e') :
    m.names? e' = (m.names? e).bind fun path => (m.elementName? e').map fun name => path ++ [name] := by
  unfold names?
  rw [lineage?_of_owns h ho]
  cases m.lineage? e with
  | none => rfl
  | some l =>
    cases hl : l.mapM m.elementName? <;> cases hn : m.elementName? e' <;> simp [List.mapM_append, hl, hn]

theorem names?_root : ∃ name, m.name? root = some name ∧ m.names? (.vertex root) = some [name] := by
  obtain ⟨record, hrec⟩ := Option.isSome_iff_exists.mp h.vertex?_root_isSome
  refine ⟨record.name, by simp [name?, hrec], ?_⟩
  simp [names?, lineage?, ancestors?, path?_isSome h h.vertex?_root_isSome, path_root h, elementName?, hrec]

theorem names?_region {r : RegionId} {o : VertexId} {path : List String} (ho : m.owner? r = some o)
    (hpath : m.names? (.vertex o) = some path) :
    ∃ name, m.elementName? (.region r) = some name ∧ m.names? (.region r) = some (path ++ [name]) := by
  obtain ⟨region, hreg, _⟩ := owner?_eq_some.mp ho
  have hname : m.elementName? (.region r) = some region.name := by simp [elementName?, hreg]
  have howns : m.Owns (.vertex o) (.region r) := ho
  exact ⟨region.name, hname, by simp [names?_of_owns h howns, hpath, hname]⟩

theorem names?_vertex {v : VertexId} {r : RegionId} {path : List String} (hv : m.parent? v = some r)
    (hpath : m.names? (.region r) = some path) :
    ∃ name, m.name? v = some name ∧ m.names? (.vertex v) = some (path ++ [name]) := by
  obtain ⟨record, hrec, _⟩ := parent?_eq_some.mp hv
  have hname : m.elementName? (.vertex v) = some record.name := by simp [elementName?, hrec]
  have howns : m.Owns (.region r) (.vertex v) := hv
  exact ⟨record.name, hname, by simp [names?_of_owns h howns, hpath, hname]⟩

theorem names?_isSome (v : VertexId) (hv : (m.vertex? v).isSome) : (m.names? (.vertex v)).isSome := by
  refine h.induction (motive := fun v => (m.names? (.vertex v)).isSome) ?_ ?_ v hv
  · obtain ⟨name, _, hname⟩ := names?_root h
    simp [hname]
  · intro v r o hp ho ih
    obtain ⟨path, hpath⟩ := Option.isSome_iff_exists.mp ih
    obtain ⟨a, _, hr⟩ := names?_region h ho hpath
    obtain ⟨b, _, hv⟩ := names?_vertex h hp hr
    simp [hv]

theorem exists_names?_of_owner? {r : RegionId} {o : VertexId} (ho : m.owner? r = some o) :
    ∃ path name, m.names? (.vertex o) = some path ∧ m.elementName? (.region r) = some name ∧
      m.names? (.region r) = some (path ++ [name]) := by
  obtain ⟨path, hpath⟩ := Option.isSome_iff_exists.mp
    (names?_isSome h o (vertex?_isSome_of_isState (h.isState_of_owner? ho)))
  obtain ⟨name, hname, hr⟩ := names?_region h ho hpath
  exact ⟨path, name, hpath, hname, hr⟩

theorem exists_names?_of_parent? {v : VertexId} {r : RegionId} (hv : m.parent? v = some r) :
    ∃ path name, m.names? (.region r) = some path ∧ m.name? v = some name ∧
      m.names? (.vertex v) = some (path ++ [name]) := by
  obtain ⟨o, ho⟩ := h.owner?_of_parent? hv
  obtain ⟨path, a, _, _, hr⟩ := exists_names?_of_owner? h ho
  obtain ⟨b, hname, hv⟩ := names?_vertex h hv hr
  exact ⟨path ++ [a], b, hr, hname, hv⟩

end

/-! ## Names tell elements apart -/

section
variable (h : m.Arena) (hd : m.NamesRegions)
include h hd

theorem region_eq_of_name {r q : RegionId} {o : VertexId} (hr : m.owner? r = some o) (hq : m.owner? q = some o)
    (hname : m.elementName? (.region r) = m.elementName? (.region q)) : r = q := by
  have hknown := vertex?_isSome_of_isState (h.isState_of_owner? hr)
  exact List.inj_on_of_nodup_map (hd o (mem_vertexIds.mpr (vertex?_isSome_iff.mp hknown)))
    (h.mem_regionsOf.mpr hr) (h.mem_regionsOf.mpr hq) hname

variable (ho : m.Orderly)
include ho

theorem vertex_eq_of_names? (v : VertexId) (hv : (m.vertex? v).isSome) :
    ∀ w, (m.vertex? w).isSome → m.names? (.vertex v) = m.names? (.vertex w) → v = w := by
  -- From the root downwards: equal paths begin alike, so that the owners are equal, then the regions, and then the
  -- vertices.
  refine h.induction (motive := fun v => ∀ w, (m.vertex? w).isSome →
    m.names? (.vertex v) = m.names? (.vertex w) → v = w) ?_ ?_ v hv
  · intro w hw heq
    rcases h.root_or_owner hw with rfl | ⟨q, o, hq, ho', _⟩
    · rfl
    · obtain ⟨name, _, hroot⟩ := names?_root h
      obtain ⟨path, a, _, _, hr⟩ := exists_names?_of_owner? h ho'
      obtain ⟨b, _, hw⟩ := names?_vertex h hq hr
      have := congrArg (·.map List.length) heq
      simp [hroot, hw] at this
  · intro v r o hp hr ih w hw heq
    obtain ⟨path, a, hpath, ha, hnr⟩ := exists_names?_of_owner? h hr
    obtain ⟨b, hb, hnv⟩ := names?_vertex h hp hnr
    rcases h.root_or_owner hw with rfl | ⟨q, s, hq, hs, _⟩
    · obtain ⟨name, _, hroot⟩ := names?_root h
      have := congrArg (·.map List.length) heq
      simp [hroot, hnv] at this
    · obtain ⟨path', a', hpath', ha', hnq⟩ := exists_names?_of_owner? h hs
      obtain ⟨b', hb', hnw⟩ := names?_vertex h hq hnq
      rw [hnv, hnw, Option.some.injEq] at heq
      obtain ⟨heq, hlast⟩ := List.append_inj' heq rfl
      obtain ⟨heq, hmid⟩ := List.append_inj' heq rfl
      have hos : o = s := ih s (vertex?_isSome_of_isState (h.isState_of_owner? hs)) (by rw [hpath, hpath', heq])
      subst hos
      have hrq : r = q := region_eq_of_name h hd hr hs (by rw [ha, ha']; simpa using hmid)
      subst hrq
      exact ho.names hp hq (by rw [hb, hb']; simpa using hlast)

theorem region_eq_of_names? {r q : RegionId} {o s : VertexId} (hr : m.owner? r = some o) (hq : m.owner? q = some s)
    (heq : m.names? (.region r) = m.names? (.region q)) : r = q := by
  obtain ⟨path, a, hpath, ha, hnr⟩ := exists_names?_of_owner? h hr
  obtain ⟨path', a', hpath', ha', hnq⟩ := exists_names?_of_owner? h hq
  rw [hnr, hnq, Option.some.injEq] at heq
  obtain ⟨heq, hlast⟩ := List.append_inj' heq rfl
  have hos : o = s := vertex_eq_of_names? h hd ho o (vertex?_isSome_of_isState (h.isState_of_owner? hr)) s
    (vertex?_isSome_of_isState (h.isState_of_owner? hq)) (by rw [hpath, hpath', heq])
  subst hos
  exact region_eq_of_name h hd hr hq (by rw [ha, ha']; simpa using hlast)

end

/-! ## Twins -/

theorem Rebuilt.exists_vertex (hm : m.Rebuilt m') {v : VertexId} (hv : (m.vertex? v).isSome) :
    ∃ v', (m'.vertex? v').isSome ∧ m'.names? (.vertex v') = m.names? (.vertex v) := by
  have hmem : m.names? (.vertex v) ∈ m.vertexIds.map fun v => m.names? (.vertex v) :=
    List.mem_map_of_mem (mem_vertexIds.mpr (vertex?_isSome_iff.mp hv))
  obtain ⟨v', hv', heq⟩ := List.mem_map.mp (hm.vertices.mem_iff.mp hmem)
  exact ⟨v', vertex?_isSome_iff.mpr (mem_vertexIds.mp hv'), heq⟩

theorem Rebuilt.exists_region (hm : m.Rebuilt m') {r : RegionId} {o : VertexId} (ho : m.owner? r = some o) :
    ∃ r' o', m'.owner? r' = some o' ∧ m'.names? (.region r') = m.names? (.region r) := by
  have hmem : m.names? (.region r) ∈ m.regionIds.map fun r => m.names? (.region r) :=
    List.mem_map_of_mem (mem_regionIds_of_owner? ho)
  obtain ⟨r', hr', heq⟩ := List.mem_map.mp (hm.regions.mem_iff.mp hmem)
  obtain ⟨region, hreg⟩ := Option.isSome_iff_exists.mp (mem_regionIds.mp hr')
  exact ⟨r', region.parent, owner?_eq_some.mpr ⟨region, hreg, rfl⟩, heq⟩

/-- A model is known by its names: everything in it has a path of names of its own. -/
structure Known (m : Model μ δ) : Prop where
  vertex : ∀ {v w}, (m.vertex? v).isSome → (m.vertex? w).isSome → m.names? (.vertex v) = m.names? (.vertex w) → v = w
  region : ∀ {r q o s}, m.owner? r = some o → m.owner? q = some s → m.names? (.region r) = m.names? (.region q) → r = q

theorem Arena.known (h : m.Arena) (hd : m.NamesRegions) (ho : m.Orderly) : m.Known where
  vertex hv hw := vertex_eq_of_names? h hd ho _ hv _ hw
  region := region_eq_of_names? h hd ho

theorem Known.nodup_vertices (hk : m.Known) : (m.vertexIds.map fun v => m.names? (.vertex v)).Nodup := by
  refine List.Nodup.map_on (fun v hv w hw heq => ?_) (List.nodup_range.map fun a b hab => by simpa using hab)
  exact hk.vertex (vertex?_isSome_iff.mpr (mem_vertexIds.mp hv)) (vertex?_isSome_iff.mpr (mem_vertexIds.mp hw)) heq

theorem Known.nodup_regions (hk : m.Known) : (m.regionIds.map fun r => m.names? (.region r)).Nodup := by
  refine List.Nodup.map_on (fun r hr q hq heq => ?_) (List.nodup_range.map fun a b hab => by simpa using hab)
  obtain ⟨region, hreg⟩ := Option.isSome_iff_exists.mp (mem_regionIds.mp hr)
  obtain ⟨region', hreg'⟩ := Option.isSome_iff_exists.mp (mem_regionIds.mp hq)
  exact hk.region (owner?_eq_some.mpr ⟨region, hreg, rfl⟩) (owner?_eq_some.mpr ⟨region', hreg', rfl⟩) heq

theorem Known.rebuilt (hk : m.Known) (hm : m.Rebuilt m') : m'.Known where
  vertex hv hw heq := List.inj_on_of_nodup_map (hm.vertices.nodup_iff.mp hk.nodup_vertices)
    (mem_vertexIds.mpr (vertex?_isSome_iff.mp hv)) (mem_vertexIds.mpr (vertex?_isSome_iff.mp hw)) heq
  region hr hq heq := List.inj_on_of_nodup_map (hm.regions.nodup_iff.mp hk.nodup_regions)
    (mem_regionIds_of_owner? hr) (mem_regionIds_of_owner? hq) heq

/-! ## Elements found by name -/

theorem Known.regionNamed?_eq (hk : m.Known) (h : m.Arena) {r : RegionId} {o : VertexId} {name : String}
    (ho : m.owner? r = some o) (hname : m.elementName? (.region r) = some name) : m.regionNamed? o name = some r := by
  obtain ⟨path, n, hpath, hn, hr⟩ := exists_names?_of_owner? h ho
  obtain ⟨region, hreg, _⟩ := owner?_eq_some.mp ho
  have hfound : (m.regionNamed? o name).isSome := by
    refine List.find?_isSome.mpr ⟨r, h.mem_regionsOf.mpr ho, ?_⟩
    simp_all [elementName?]
  obtain ⟨q, hq⟩ := Option.isSome_iff_exists.mp hfound
  have hqo := h.mem_regionsOf.mp (List.mem_of_find?_eq_some hq)
  obtain ⟨path', n', hpath', hn', hnq⟩ := exists_names?_of_owner? h hqo
  obtain ⟨region', hreg', _⟩ := owner?_eq_some.mp hqo
  have hqn := List.find?_some hq
  rw [hq, Option.some.injEq]
  apply hk.region hqo ho
  simp_all [elementName?]

theorem Known.vertexNamed?_eq (hk : m.Known) (h : m.Arena) {v : VertexId} {r : RegionId} {name : String}
    (hv : m.parent? v = some r) (hname : m.name? v = some name) : m.vertexNamed? r name = some v := by
  obtain ⟨path, n, hpath, hn, hnv⟩ := exists_names?_of_parent? h hv
  rw [hname, Option.some.injEq] at hn
  obtain ⟨w, hw⟩ := Option.isSome_iff_exists.mp (isSome_vertexNamed? h hv hname)
  have hwr := h.mem_verticesOf.mp (List.mem_of_find?_eq_some hw)
  obtain ⟨path', n', hpath', hn', hnw⟩ := exists_names?_of_parent? h hwr
  obtain ⟨record, hrec, _⟩ := parent?_eq_some.mp hwr
  have hwn := List.find?_some hw
  rw [hw, Option.some.injEq]
  apply hk.vertex (vertex?_isSome_of_parent? hwr) (vertex?_isSome_of_parent? hv)
  simp_all [name?]

section
variable (h : m.Arena) (h' : m'.Arena) (hm : m.Rebuilt m')
include h h' hm

theorem twin_root : m.Twin m' (.vertex root) (.vertex root) := by
  obtain ⟨name, _, hroot⟩ := names?_root h
  obtain ⟨v', hv', heq⟩ := hm.exists_vertex h.vertex?_root_isSome
  rcases h'.root_or_owner hv' with rfl | ⟨r', o', hp, ho, _⟩
  · exact ⟨by simp [hroot], heq⟩
  · obtain ⟨path, a, _, _, hr⟩ := exists_names?_of_owner? h' ho
    obtain ⟨b, _, hv⟩ := names?_vertex h' hp hr
    have := congrArg (·.map List.length) heq
    simp [hroot, hv] at this

variable (hk : m'.Known)
include hk

theorem exists_regionNamed? {r : RegionId} {o o' : VertexId} (ho : m.owner? r = some o) (hv : (m'.vertex? o').isSome)
    (ht : m.Twin m' (.vertex o) (.vertex o')) :
    ∃ name r', m.elementName? (.region r) = some name ∧ m'.regionNamed? o' name = some r' ∧
      m'.owner? r' = some o' ∧ m.Twin m' (.region r) (.region r') := by
  obtain ⟨path, name, hpath, hname, hr⟩ := exists_names?_of_owner? h ho
  obtain ⟨r', s', hs, heq⟩ := hm.exists_region ho
  obtain ⟨path', name', hpath', hname', hr'⟩ := exists_names?_of_owner? h' hs
  have happend := heq
  rw [hr, hr', Option.some.injEq] at happend
  obtain ⟨hpp, hnn⟩ := List.append_inj' happend rfl
  have hown : s' = o' := by
    apply hk.vertex (vertex?_isSome_of_isState (h'.isState_of_owner? hs)) hv
    rw [hpath', ht.2, hpath, hpp]
  subst hown
  have hsame : m'.elementName? (.region r') = some name := by simpa [hname'] using hnn
  exact ⟨name, r', hname, hk.regionNamed?_eq h' hs hsame, hs, by simp [hr], heq⟩

theorem exists_vertexNamed? {v : VertexId} {r r' : RegionId} {o' : VertexId} (hv : m.parent? v = some r)
    (ho : m'.owner? r' = some o') (ht : m.Twin m' (.region r) (.region r')) :
    ∃ name v', m.name? v = some name ∧ m'.vertexNamed? r' name = some v' ∧ m'.parent? v' = some r' ∧
      m.Twin m' (.vertex v) (.vertex v') := by
  obtain ⟨path, name, hpath, hname, hnv⟩ := exists_names?_of_parent? h hv
  obtain ⟨v', hv', heq⟩ := hm.exists_vertex (vertex?_isSome_of_parent? hv)
  rcases h'.root_or_owner hv' with rfl | ⟨q', s', hq, hs, _⟩
  · -- The names of the root are too few.
    obtain ⟨n, _, hroot⟩ := names?_root h'
    obtain ⟨o, ho⟩ := h.owner?_of_parent? hv
    obtain ⟨above, a, _, _, hr⟩ := exists_names?_of_owner? h ho
    rw [hr, Option.some.injEq] at hpath
    have := congrArg (·.map List.length) heq
    simp [hroot, hnv, ← hpath] at this
  · obtain ⟨path', name', hpath', hname', hnv'⟩ := exists_names?_of_parent? h' hq
    have happend := heq
    rw [hnv, hnv', Option.some.injEq] at happend
    obtain ⟨hpp, hnn⟩ := List.append_inj' happend rfl
    have hregion : q' = r' := hk.region hs ho (by rw [hpath', ht.2, hpath, hpp])
    subst hregion
    have hsame : m'.name? v' = some name := by simpa [hname'] using hnn
    exact ⟨name, v', hname, hk.vertexNamed?_eq h' hq hsame, hq, by simp [hnv], heq⟩

end

/-! ## What is resolved -/

/-- Each pair of the list is the twin of a record, and there is one for each record of a region that satisfies `P`. -/
structure Resolves (m m' : Model μ δ) (i : Instance δ) (P : RegionId → Prop) (l : List (RegionId × VertexId)) :
    Prop where
  sound : ∀ e ∈ l, ∃ r v, i.current? r = some v ∧ m.Twin m' (.region r) (.region e.1) ∧
    m.Twin m' (.vertex v) (.vertex e.2)
  covers : ∀ r v, P r → i.current? r = some v → ∃ e ∈ l, m.Twin m' (.region r) (.region e.1)

theorem Resolves.append {i : Instance δ} {P Q R : RegionId → Prop} {l₁ l₂ : List (RegionId × VertexId)}
    (h₁ : m.Resolves m' i P l₁) (h₂ : m.Resolves m' i Q l₂) (hR : ∀ r, R r → P r ∨ Q r) :
    m.Resolves m' i R (l₁ ++ l₂) where
  sound e he := (List.mem_append.mp he).elim (h₁.sound e) (h₂.sound e)
  covers r v hr hv := by
    rcases hR r hr with hp | hq
    · obtain ⟨e, he, ht⟩ := h₁.covers r v hp hv
      exact ⟨e, List.mem_append_left _ he, ht⟩
    · obtain ⟨e, he, ht⟩ := h₂.covers r v hq hv
      exact ⟨e, List.mem_append_right _ he, ht⟩

theorem resolves_nil {i : Instance δ} {P : RegionId → Prop} (hP : ∀ r, P r → i.current? r = none) :
    m.Resolves m' i P [] where
  sound := by simp
  covers r v hr hv := by rw [hP r hr] at hv; cases hv

theorem exists_of_encloses (h : m.Arena) {r q : RegionId} (hr : m.Encloses r q) :
    q = r ∨ ∃ v s, m.parent? v = some r ∧ m.owner? s = some v ∧ m.Encloses s q := by
  rcases hr with rfl | ⟨o, ho, ha⟩
  · exact Or.inl rfl
  · obtain ⟨⟨_, w⟩, hmem, rfl⟩ := List.mem_map.mp ha
    obtain ⟨hw, rfl | ⟨s, hs, hso⟩⟩ := of_mem_path h o (vertex?_isSome_of_above ha) hmem
    · exact Or.inr ⟨w, q, hw, ho, encloses_refl q⟩
    · exact Or.inr ⟨w, s, hw, hs, Or.inr ⟨o, ho, hso⟩⟩

section
variable (h : m.Arena) (h' : m'.Arena) (hm : m.Rebuilt m') (hk : m'.Known) {i : Instance δ}
include h h' hm hk

theorem resolves_regions {height : Nat} {o o' : VertexId} (hv : (m'.vertex? o').isSome)
    (ht : m.Twin m' (.vertex o) (.vertex o'))
    (hregion : ∀ r r' node, m.owner? r = some o → m'.owner? r' = some o' → m.Twin m' (.region r) (.region r') →
      m.captureRegion? height i r = some node →
      m.elementName? (.region r) = some node.name ∧
        ∃ l, m'.resolveRegion r' node = .ok l ∧ m.Resolves m' i (m.Encloses r) l) :
    ∀ (rs : List RegionId) (nodes : List RegionNode), (∀ r ∈ rs, m.owner? r = some o) →
      rs.mapM (m.captureRegion? height i) = some nodes →
      ∃ l, m'.resolveRegions o' nodes = .ok l ∧ m.Resolves m' i (fun q => ∃ r ∈ rs, m.Encloses r q) l := by
  intro rs
  induction rs with
  | nil =>
    intro nodes _ hnodes
    cases hnodes
    exact ⟨[], by simp [resolveRegions], resolves_nil (by simp)⟩
  | cons r rs ih =>
    intro nodes ho hnodes
    simp only [List.mapM_cons, Option.bind_eq_bind, Option.bind_eq_some_iff] at hnodes
    obtain ⟨node, hnode, rest, hrest, heq⟩ := hnodes
    cases heq
    obtain ⟨name, r', hname, hfound, ho', htr⟩ := exists_regionNamed? h h' hm hk (ho r (by simp)) hv ht
    obtain ⟨hn, l₁, hl₁, hres₁⟩ := hregion r r' node (ho r (by simp)) ho' htr hnode
    obtain ⟨l₂, hl₂, hres₂⟩ := ih rest (fun q hq => ho q (List.mem_cons_of_mem _ hq)) hrest
    rw [hname, Option.some.injEq] at hn
    refine ⟨l₁ ++ l₂, ?_, hres₁.append hres₂ (by simp)⟩
    rw [resolveRegions, ← hn, hfound]
    simp only [hl₁, hl₂]
    rfl

theorem resolves_states {height : Nat} {r r' : RegionId} {o' : VertexId} (ho : m'.owner? r' = some o')
    (ht : m.Twin m' (.region r) (.region r'))
    (hstate : ∀ v v' node, (m.vertex? v).isSome → (m'.vertex? v').isSome → m.Twin m' (.vertex v) (.vertex v') →
      m.captureState? height i v = some node →
      m.name? v = some node.name ∧
        ∃ l, m'.resolveState v' node = .ok l ∧ m.Resolves m' i (fun q => ∃ s ∈ m.regionsOf v, m.Encloses s q) l) :
    ∀ (vs : List VertexId) (nodes : List StateNode), (∀ v ∈ vs, m.parent? v = some r) →
      vs.mapM (m.captureState? height i) = some nodes →
      ∃ l, m'.resolveStates r' nodes = .ok l ∧
        m.Resolves m' i (fun q => ∃ v ∈ vs, ∃ s ∈ m.regionsOf v, m.Encloses s q) l := by
  intro vs
  induction vs with
  | nil =>
    intro nodes _ hnodes
    cases hnodes
    exact ⟨[], by simp [resolveStates], resolves_nil (by simp)⟩
  | cons v vs ih =>
    intro nodes hp hnodes
    simp only [List.mapM_cons, Option.bind_eq_bind, Option.bind_eq_some_iff] at hnodes
    obtain ⟨node, hnode, rest, hrest, heq⟩ := hnodes
    cases heq
    obtain ⟨name, v', hname, hfound, hp', htv⟩ := exists_vertexNamed? h h' hm hk (hp v (by simp)) ho ht
    obtain ⟨hn, l₁, hl₁, hres₁⟩ := hstate v v' node (vertex?_isSome_of_parent? (hp v (by simp)))
      (vertex?_isSome_of_parent? hp') htv hnode
    obtain ⟨l₂, hl₂, hres₂⟩ := ih rest (fun w hw => hp w (List.mem_cons_of_mem _ hw)) hrest
    rw [hname, Option.some.injEq] at hn
    refine ⟨l₁ ++ l₂, ?_, hres₁.append hres₂ (by simp)⟩
    rw [resolveStates, ← hn, hfound]
    simp only [hl₁, hl₂]
    rfl

theorem resolves_current (hi : m.Fits false i) {r r' : RegionId} {o' : VertexId} {current : Option String}
    (ho : m'.owner? r' = some o') (ht : m.Twin m' (.region r) (.region r'))
    (hcurrent : ((i.current? r).mapM fun v => (m.vertex? v).map (·.name)) = some current) :
    ∃ l, m.Resolves m' i (· = r) l ∧ ∀ name states rest, m'.resolveStates r' states = .ok rest →
      m'.resolveRegion r' (.mk name current states) = .ok (l ++ rest) := by
  cases hv : i.current? r with
  | none =>
    rw [hv] at hcurrent
    cases hcurrent
    refine ⟨[], resolves_nil (by rintro q rfl; exact hv), fun name states rest hrest => ?_⟩
    rw [resolveRegion.eq_def]
    simp only [hrest]
    rfl
  | some v =>
    obtain ⟨name, v', hname, hfound, _, htv⟩ := exists_vertexNamed? h h' hm hk (hi r v hv).1 ho ht
    have hcur : current = some name := by
      unfold name? at hname
      simp_all
    subst hcur
    refine ⟨[(r', v')], ⟨?_, ?_⟩, fun name states rest hrest => ?_⟩
    · intro e he
      rw [List.mem_singleton] at he
      subst he
      exact ⟨r, v, hv, ht, htv⟩
    · intro q w hq _
      subst hq
      exact ⟨(r', v'), by simp, ht⟩
    · rw [resolveRegion.eq_def]
      simp only [hfound, hrest]
      rfl

theorem resolves (hi : m.Fits false i) (height : Nat) :
    (∀ v v' node, (m.vertex? v).isSome → (m'.vertex? v').isSome → m.Twin m' (.vertex v) (.vertex v') →
      m.captureState? height i v = some node →
      m.name? v = some node.name ∧
        ∃ l, m'.resolveState v' node = .ok l ∧ m.Resolves m' i (fun q => ∃ s ∈ m.regionsOf v, m.Encloses s q) l) ∧
    ∀ r r' o o' node, m.owner? r = some o → m'.owner? r' = some o' → m.Twin m' (.region r) (.region r') →
      m.captureRegion? height i r = some node →
      m.elementName? (.region r) = some node.name ∧
        ∃ l, m'.resolveRegion r' node = .ok l ∧ m.Resolves m' i (m.Encloses r) l := by
  -- States and regions take turns in a snapshot, a level each, so both are shown at once.
  induction height with
  | zero =>
    constructor
    · intro v v' node _ _ _ hnode
      cases hnode
    · intro r r' o o' node _ _ _ hnode
      cases hnode
  | succ height ih =>
    constructor
    · intro v v' node hv hv' ht hnode
      simp only [captureState?, Option.bind_eq_bind, Option.bind_eq_some_iff] at hnode
      obtain ⟨record, hrec, nodes, hnodes, heq⟩ := hnode
      cases heq
      have hregions : ∀ r ∈ record.regions, m.owner? r = some v := fun r hr =>
        h.mem_regionsOf.mp (by simpa [regionsOf, hrec] using hr)
      obtain ⟨l, hl, hres⟩ := resolves_regions h h' hm hk hv' ht
        (fun r r' node ho ho' htr hnode => ih.2 r r' v v' node ho ho' htr hnode) _ _ hregions hnodes
      refine ⟨by simp [name?, hrec, StateNode.name], l, by rw [resolveState]; exact hl, ?_⟩
      simpa [regionsOf, hrec] using hres
    · intro r r' o o' node ho ho' ht hnode
      simp only [captureRegion?, Option.bind_eq_bind, Option.bind_eq_some_iff] at hnode
      obtain ⟨region, hreg, current, hcurrent, nodes, hnodes, heq⟩ := hnode
      cases heq
      refine ⟨by simp [elementName?, hreg, RegionNode.name], ?_⟩
      have hmembers : ∀ v ∈ region.vertices.filter fun v => !(m.regionsOf v).isEmpty, m.parent? v = some r :=
        fun v hv => h.mem_verticesOf.mp (by simpa [verticesOf, hreg] using (List.mem_filter.mp hv).1)
      obtain ⟨l, hl, hres⟩ := resolves_states h h' hm hk ho' ht ih.1 _ _ hmembers hnodes
      obtain ⟨l₀, hres₀, hl₀⟩ := resolves_current h h' hm hk hi ho' ht hcurrent
      refine ⟨l₀ ++ l, hl₀ _ _ _ hl, hres₀.append hres fun q hq => ?_⟩
      -- Leaves are left out of the snapshot, but they own no regions that could record anything.
      rcases exists_of_encloses h hq with rfl | ⟨v, s, hv, hs, hsq⟩
      · exact Or.inl rfl
      · have hsv := h.mem_regionsOf.mpr hs
        refine Or.inr ⟨v, List.mem_filter.mpr ⟨?_, ?_⟩, s, hsv, hsq⟩
        · simpa [verticesOf, hreg] using h.mem_verticesOf.mpr hv
        · simpa using List.ne_nil_of_mem hsv

end

/-! ## What is written -/

/-- A region that the list is of one mind about gets what the list has for it. -/
theorem current?_foldl_setCurrent {r : RegionId} {v : VertexId} {l : List (RegionId × VertexId)} {j : Instance δ}
    (hl : ∀ e ∈ l, e.1 = r → e.2 = v) (h : j.current? r = some v ∨ ∃ e ∈ l, e.1 = r) :
    (l.foldl (fun j (r, v) => j.setCurrent r v) j).current? r = some v := by
  induction l generalizing j with
  | nil => simpa using h
  | cons e l ih =>
    apply ih (fun e he => hl e (List.mem_cons_of_mem _ he))
    by_cases he : e.1 = r
    · left
      rw [Instance.current?_setCurrent, if_pos he, hl e (by simp) he]
    · rcases h with h | ⟨e', he', heq⟩
      · left
        rw [Instance.current?_setCurrent, if_neg he, h]
      · rcases List.mem_cons.mp he' with rfl | he'
        · exact absurd heq he
        · exact Or.inr ⟨e', he', heq⟩

theorem current?_foldl_of_not_mem {r : RegionId} {l : List (RegionId × VertexId)} {j : Instance δ}
    (hl : ∀ e ∈ l, e.1 ≠ r) : (l.foldl (fun j (r, v) => j.setCurrent r v) j).current? r = j.current? r := by
  induction l generalizing j with
  | nil => rfl
  | cons e l ih =>
    rw [List.foldl_cons, ih fun e he => hl e (List.mem_cons_of_mem _ he), Instance.current?_setCurrent,
      if_neg (hl e (by simp))]

theorem Known.region_eq (hk : m.Known) {r q : RegionId} (hr : (m.names? (.region r)).isSome)
    (heq : m.names? (.region q) = m.names? (.region r)) : q = r := by
  have howner : ∀ {s}, (m.names? (.region s)).isSome → ∃ o, m.owner? s = some o := by
    intro s hs
    cases hreg : m.region? s with
    | none => simp [names?, lineage?, hreg] at hs
    | some region => exact ⟨region.parent, owner?_eq_some.mpr ⟨region, hreg, rfl⟩⟩
  obtain ⟨o, ho⟩ := howner hr
  obtain ⟨s, hs⟩ := howner (heq ▸ hr)
  exact hk.region hs ho heq

theorem Known.vertex_eq (hk : m.Known) {v w : VertexId} (hv : (m.names? (.vertex v)).isSome)
    (heq : m.names? (.vertex w) = m.names? (.vertex v)) : w = v := by
  have hknown : ∀ {u}, (m.names? (.vertex u)).isSome → (m.vertex? u).isSome := by
    intro u hu
    cases hrec : m.vertex? u with
    | some record => rfl
    | none =>
      have hpath : m.path? u = none := by
        unfold path?
        cases m.vertices.size <;> simp [pathWithin?, hrec]
      simp [names?, lineage?, ancestors?, hpath] at hu
  exact hk.vertex (hknown (heq ▸ hv)) (hknown hv) heq

theorem Resolves.written (hk : m.Known) (hk' : m'.Known) {i j : Instance δ} {l : List (RegionId × VertexId)}
    (hl : m.Resolves m' i (fun q => ∃ r ∈ m.regionsOf root, m.Encloses r q) l) {r r' : RegionId}
    (hr : ∃ q ∈ m.regionsOf root, m.Encloses q r) (ht : m.Twin m' (.region r) (.region r')) :
    (∀ v, i.current? r = some v → ∃ v', m.Twin m' (.vertex v) (.vertex v') ∧
      (l.foldl (fun j (r, v) => j.setCurrent r v) j).current? r' = some v') ∧
    (i.current? r = none → (l.foldl (fun j (r, v) => j.setCurrent r v) j).current? r' = j.current? r') := by
  -- Names tell the regions of the first model apart, so whatever is written for `r'` comes from the record of `r`.
  have hsame : ∀ e ∈ l, e.1 = r' → ∃ v, i.current? r = some v ∧ m.Twin m' (.vertex v) (.vertex e.2) := by
    intro e he her
    obtain ⟨q, v, hv, htq, htv⟩ := hl.sound e he
    rw [her] at htq
    have hqr : r = q := hk.region_eq htq.1 (ht.2.symm.trans htq.2)
    subst hqr
    exact ⟨v, hv, htv⟩
  constructor
  · intro v hv
    obtain ⟨e, he, hte⟩ := hl.covers r v hr hv
    have hsome : (m'.names? (.region e.1)).isSome := by rw [hte.2]; exact hte.1
    have her : r' = e.1 := hk'.region_eq hsome (ht.2.trans hte.2.symm)
    obtain ⟨w, hw, htw⟩ := hsame e he her.symm
    rw [hv, Option.some.injEq] at hw
    subst hw
    refine ⟨e.2, htw, current?_foldl_setCurrent (fun e' he' heq => ?_) (Or.inr ⟨e, he, her.symm⟩)⟩
    obtain ⟨w, hw, htw'⟩ := hsame e' he' heq
    rw [hv, Option.some.injEq] at hw
    subst hw
    exact hk'.vertex_eq (by rw [htw.2]; exact htw.1) (htw'.2.trans htw.2.symm)
  · intro hnone
    apply current?_foldl_of_not_mem
    intro e he her
    obtain ⟨v, hv, _⟩ := hsame e he her
    rw [hnone] at hv
    cases hv

section
variable (h : m.Arena) (h' : m'.Arena) (hm : m.Rebuilt m')
include h h' hm

theorem Rebuilt.name : m'.name = m.name := by
  obtain ⟨n, hn, hroot⟩ := names?_root h
  obtain ⟨n', hn', hroot'⟩ := names?_root h'
  have ht := (twin_root h h' hm).2
  rw [hroot, hroot', Option.some.injEq, List.cons.injEq] at ht
  unfold Model.name
  unfold name? at hn hn'
  rw [hn, hn', ht.1]

theorem exists_restore (hk : m.Known) {i : Instance δ} (hi : m.Fits false i) {id : Uuid} {timestamp : Instant}
    {s : Snapshot}
    (hs : m.capture? i id timestamp = some s) (j : Instance δ) :
    ∃ j', m'.restore s j = .ok j' ∧ j'.terminated = i.terminated ∧ ∀ r r', (m.region? r).isSome →
      m.Twin m' (.region r) (.region r') →
      (∀ v, i.current? r = some v → ∃ v', m.Twin m' (.vertex v) (.vertex v') ∧ j'.current? r' = some v') ∧
      (i.current? r = none → j'.current? r' = j.current? r') := by
  have hk' := hk.rebuilt hm
  simp only [capture?, Option.bind_eq_bind, Option.bind_eq_some_iff] at hs
  obtain ⟨node, hnode, heq⟩ := hs
  cases heq
  obtain ⟨_, l, hl, hres⟩ := (resolves h h' hm hk' hi (2 * m.vertices.size)).1 root root node h.vertex?_root_isSome
    h'.vertex?_root_isSome (twin_root h h' hm) hnode
  refine ⟨(l.foldl (fun j (r, v) => j.setCurrent r v) j).setTerminated i.terminated, ?_, rfl, ?_⟩
  · unfold restore
    rw [if_pos (hm.name h h').symm, hl]
    rfl
  · intro r r' hr ht
    obtain ⟨region, hreg⟩ := Option.isSome_iff_exists.mp hr
    have ho : m.owner? r = some region.parent := owner?_eq_some.mpr ⟨region, hreg, rfl⟩
    have hbeneath : ∃ q ∈ m.regionsOf root, m.Encloses q r := by
      rcases root_or_above h (vertex?_isSome_of_isState (h.isState_of_owner? ho)) with hroot | ⟨q, hq, ha⟩
      · exact ⟨r, h.mem_regionsOf.mpr (hroot ▸ ho), encloses_refl r⟩
      · exact ⟨q, hq, Or.inr ⟨_, ho, ha⟩⟩
    exact hres.written hk hk' hbeneath ht

end

end Model

/-! ## Machines that have been built -/

namespace Machine

variable {m : Machine μ δ}

theorem Built.orderly (hm : m.Built) : m.Orderly := by
  induction hm with
  | ofName name => exact Model.orderly_ofName name
  | edit e hm ih =>
    exact (e.soundWith_apply (A := fun _ => True) (fun _ _ _ hc hm => hm.change hc) ⟨hm.sound, ih⟩
      (uses_any [e] e (by simp))).2
  | compile _ ih => exact ih

/-- A snapshot brings back whether the instance had terminated and every record it held, and leaves the other records of
its target alone. So it does in another model of the same names, where each record goes by its path of names. -/
theorem Built.restores (hm : m.Built) (hd : m.NamesRegions) {i : Instance δ} (hi : m.Fits false i) (id : Uuid)
    (timestamp : Instant) :
    ∃ s, m.capture? i id timestamp = some s ∧ ∀ j : Instance δ,
      (∃ j', m.restore s j = .ok j' ∧ j'.terminated = i.terminated ∧
        ∀ r, (m.region? r).isSome → j'.current? r = (i.current? r).or (j.current? r)) ∧
      ∀ m' : Machine μ δ, m'.Built → m.Rebuilt m'.toModel →
        ∃ j', m'.restore s j = .ok j' ∧ j'.terminated = i.terminated ∧
          ∀ r, (m.region? r).isSome → ∃ r', m.Twin m'.toModel (.region r) (.region r') ∧
            (∀ v, i.current? r = some v → ∃ v', m.Twin m'.toModel (.vertex v) (.vertex v') ∧
              j'.current? r' = some v') ∧
            (i.current? r = none → j'.current? r' = j.current? r') := by
  have h := hm.sound.arena
  have hk := h.known hd hm.orderly
  have hnames : ∀ r, (m.region? r).isSome → (m.names? (.region r)).isSome := by
    intro r hr
    obtain ⟨region, hreg⟩ := Option.isSome_iff_exists.mp hr
    obtain ⟨path, name, _, _, hnr⟩ := Model.exists_names?_of_owner? h (Model.owner?_eq_some.mpr ⟨region, hreg, rfl⟩)
    simp [hnr]
  obtain ⟨s, hs⟩ := Option.isSome_iff_exists.mp (Model.isSome_capture? h hi id timestamp)
  refine ⟨s, hs, fun j => ⟨?_, fun m' hm' hr => ?_⟩⟩
  · obtain ⟨j', hj', ht, hrec⟩ := Model.exists_restore h h (Model.Rebuilt.refl m.toModel) hk hi hs j
    refine ⟨j', hj', ht, fun r hr => ?_⟩
    obtain ⟨hsome, hnone⟩ := hrec r r hr ⟨hnames r hr, rfl⟩
    cases hv : i.current? r with
    | none => simpa using hnone hv
    | some v =>
      obtain ⟨v', htv, hv'⟩ := hsome v hv
      rw [hv', hk.vertex_eq htv.1 htv.2]
      rfl
  · obtain ⟨j', hj', ht, hrec⟩ := Model.exists_restore h hm'.sound.arena hr hk hi hs j
    refine ⟨j', hj', ht, fun r hreg => ?_⟩
    obtain ⟨region, hregion⟩ := Option.isSome_iff_exists.mp hreg
    obtain ⟨r', _, _, heq⟩ := hr.exists_region (Model.owner?_eq_some.mpr ⟨region, hregion, rfl⟩)
    exact ⟨r', ⟨hnames r hreg, heq⟩, hrec r r' hreg ⟨hnames r hreg, heq⟩⟩

def radio : Machine Unit Unit :=
  (ofName "radio").edited [.addState (.state root) "off", .addState (.region ⟨0⟩) "on", .addRegion ⟨2⟩ "sound",
    .addRegion ⟨2⟩ "light", .addState (.region ⟨1⟩) "quiet", .addState (.region ⟨1⟩) "loud",
    .addState (.region ⟨2⟩) "dim"]

def radioAgain : Machine Unit Unit :=
  (ofName "radio").edited [.addState (.state root) "on", .addRegion ⟨1⟩ "light", .addState (.region ⟨1⟩) "dim",
    .addRegion ⟨1⟩ "sound", .addState (.region ⟨2⟩) "loud", .addState (.region ⟨2⟩) "quiet",
    .addState (.region ⟨0⟩) "off"]

theorem restores_radio :
    ∃ s j', radio.capture? (({ data := () } : Instance Unit).setCurrent ⟨1⟩ ⟨4⟩ |>.setCurrent ⟨0⟩ ⟨1⟩)
        Uuid.zero Instant.epoch = some s ∧
      radioAgain.restore s { data := () } = .ok j' ∧
      ∃ r', radio.Twin radioAgain.toModel (.region ⟨1⟩) (.region r') ∧
        ∃ v', radio.Twin radioAgain.toModel (.vertex ⟨4⟩) (.vertex v') ∧ j'.current? r' = some v' := by
  have hempty : radio.Fits false { data := () } := Model.fits_empty ()
  have hfits := (hempty.setCurrent (r := ⟨1⟩) (v := ⟨4⟩) (by decide +kernel) (by simp)).setCurrent (r := ⟨0⟩)
    (v := ⟨1⟩) (by decide +kernel) (by simp)
  obtain ⟨s, hs, hrestore⟩ := (((Built.ofName "radio").edited _ : radio.Built)).restores (by decide +kernel) hfits
    Uuid.zero Instant.epoch
  obtain ⟨j', hj', _, hrec⟩ := (hrestore { data := () }).2 radioAgain ((Built.ofName "radio").edited _)
    ⟨by decide +kernel, by decide +kernel⟩
  obtain ⟨r', hr', hsome, _⟩ := hrec ⟨1⟩ (by decide +kernel)
  exact ⟨s, j', hs, hj', r', hr', hsome ⟨4⟩ (by decide +kernel)⟩

end Machine

end Statechart
