import Statechart.Build
import Statechart.Proofs.Arena

/-!
# Changes of a model

A building operation changes a model in a few small ways. Each of them keeps it together, leaves every vertex in its
region and of its form, and adds no action but those of the operation.
-/

namespace Statechart

variable {μ δ : Type}

/-! ## Look-ups in a changed model -/

namespace Model

variable {m : Model μ δ}

theorem vertex?_modifyVertex (id v : VertexId) (f : Vertex μ δ → Vertex μ δ) :
    (m.modifyVertex id f).vertex? v = if v = id then (m.vertex? v).map f else m.vertex? v := by
  unfold vertex? modifyVertex
  rw [Array.getElem?_modify]
  by_cases h : v = id
  · subst h; simp
  · have hi : id.index ≠ v.index := fun e => h (by cases v; cases id; simp_all)
    simp [h, hi]

theorem any_name?_eq {w : VertexId} {name : String} (hname : m.name? w = some name) :
    (m.vertex? w).any (·.name == name) = true := by
  unfold name? at hname
  cases hw : m.vertex? w <;> simp_all

theorem isSome_vertexNamed? (h : m.Arena) {r : RegionId} {w : VertexId} {name : String} (hw : m.parent? w = some r)
    (hname : m.name? w = some name) : (m.vertexNamed? r name).isSome = true := by
  unfold vertexNamed?
  rw [List.find?_isSome]
  exact ⟨w, h.mem_verticesOf.mpr hw, any_name?_eq hname⟩

theorem any_verticesOf (h : m.Arena) {r : RegionId} {v w : VertexId} {name : String} (hw : m.parent? w = some r)
    (hne : w ≠ v) (hname : m.name? w = some name) :
    ((m.verticesOf r).any fun sibling => sibling ≠ v && (m.vertex? sibling).any (·.name == name)) = true := by
  rw [List.any_eq_true]
  exact ⟨w, h.mem_verticesOf.mpr hw, by simp [hne, any_name?_eq hname]⟩

structure Retains (f : Vertex μ δ → Vertex μ δ) : Prop where
  parent : ∀ record, (f record).parent = record.parent
  regions : ∀ record, (f record).regions = record.regions
  isState : ∀ record, (f record).isState = record.isState
  outgoing : ∀ record, (f record).outgoing = record.outgoing

/-- Two models that agree on all that hanging together depends on. -/
structure Resembles (m m' : Model μ δ) : Prop where
  vertex : ∀ v, (m'.vertex? v).isSome = (m.vertex? v).isSome
  parent : ∀ v, m'.parent? v = m.parent? v
  regions : ∀ v, m'.regionsOf v = m.regionsOf v
  isState : ∀ v, m'.isState v = m.isState v
  outgoing : ∀ v, m'.outgoing v = m.outgoing v
  vertices : ∀ r, m'.verticesOf r = m.verticesOf r
  owner : ∀ r, m'.owner? r = m.owner? r
  source : ∀ t, (m'.transition? t).map (·.source) = (m.transition? t).map (·.source)
  transition : ∀ t record, m'.transition? t = some record → ∃ record', m.transition? t = some record' ∧
    record.source = record'.source ∧ record.target = record'.target ∧ record.kind = record'.kind

theorem Arena.of_resembles {m' : Model μ δ} (h : m.Arena) (hm : Resembles m m') : m'.Arena where
  isState_root := by rw [hm.isState]; exact h.isState_root
  parent?_root := by rw [hm.parent]; exact h.parent?_root
  parent?_of_ne := by intro v hv hr; rw [hm.parent]; rw [hm.vertex] at hv; exact h.parent?_of_ne hv hr
  mem_verticesOf := by intro r v; rw [hm.vertices, hm.parent]; exact h.mem_verticesOf
  mem_regionsOf := by intro r v; rw [hm.regions, hm.owner]; exact h.mem_regionsOf
  nodup_verticesOf := by intro r; rw [hm.vertices]; exact h.nodup_verticesOf r
  nodup_regionsOf := by intro v; rw [hm.regions]; exact h.nodup_regionsOf v
  owner?_lt := by intro v r o hv ho; rw [hm.parent] at hv; rw [hm.owner] at ho; exact h.owner?_lt hv ho
  mem_outgoing := by intro t v; rw [hm.outgoing, hm.source]; exact h.mem_outgoing
  source_isSome := by
    intro t record ht
    obtain ⟨record', ht', hs, _, _⟩ := hm.transition t record ht
    rw [hm.vertex, hs]; exact h.source_isSome ht'
  target_isSome := by
    intro t record u ht hu
    obtain ⟨record', ht', _, hg, _⟩ := hm.transition t record ht
    rw [hm.vertex]; exact h.target_isSome ht' (hg ▸ hu)
  internal_iff := by
    intro t record ht
    obtain ⟨record', ht', _, hg, hk⟩ := hm.transition t record ht
    rw [hg, hk]; exact h.internal_iff ht'

theorem resembles_modifyVertex {f : Vertex μ δ → Vertex μ δ} (hf : Retains f) (id : VertexId) :
    Resembles m (m.modifyVertex id f) := by
  have hv := fun v => vertex?_modifyVertex (m := m) id v f
  constructor
  · intro v; rw [hv]; split <;> simp
  · intro v; unfold parent?; rw [hv]; split
    · cases m.vertex? v <;> simp [hf.parent]
    · rfl
  · intro v; unfold regionsOf; rw [hv]; split
    · cases m.vertex? v <;> simp [hf.regions]
    · rfl
  · intro v; unfold isState; rw [hv]; split
    · cases m.vertex? v <;> simp [hf.isState]
    · rfl
  · intro v; unfold outgoing; rw [hv]; split
    · cases m.vertex? v <;> simp [hf.outgoing]
    · rfl
  · intro r; rfl
  · intro r; rfl
  · intro t; rfl
  · intro t record ht; exact ⟨record, ht, rfl, rfl, rfl⟩

theorem retains_modifyState {f : State μ δ → State μ δ} (hf : ∀ content, (f content).regions = content.regions) :
    Retains fun record : Vertex μ δ => match record.form with
      | .state content => { record with form := .state (f content) }
      | .pseudo _ => record := by
  constructor <;> intro record <;>
    cases hr : record.form <;> simp [Vertex.regions, Vertex.isState, Vertex.state?, hr, hf]

section
variable (id v : VertexId) (f : State μ δ → State μ δ)

theorem vertex?_isSome_modifyState : ((m.modifyState id f).vertex? v).isSome = (m.vertex? v).isSome := by
  unfold modifyState; rw [vertex?_modifyVertex]; split <;> simp

theorem parent?_modifyState : (m.modifyState id f).parent? v = m.parent? v := by
  unfold parent? modifyState; rw [vertex?_modifyVertex]; split
  · cases m.vertex? v with
    | none => rfl
    | some record => cases hf : record.form <;> simp [hf]
  · rfl

theorem isState_modifyState : (m.modifyState id f).isState v = m.isState v := by
  unfold isState modifyState; rw [vertex?_modifyVertex]; split
  · cases m.vertex? v with
    | none => rfl
    | some record => cases hf : record.form <;> simp [hf, Vertex.isState, Vertex.state?]
  · rfl

theorem outgoing_modifyState : (m.modifyState id f).outgoing v = m.outgoing v := by
  unfold outgoing modifyState; rw [vertex?_modifyVertex]; split
  · cases m.vertex? v with
    | none => rfl
    | some record => cases hf : record.form <;> simp [hf]
  · rfl

end

theorem arena_modifyState (h : m.Arena) (id : VertexId) {f : State μ δ → State μ δ}
    (hf : ∀ content, (f content).regions = content.regions) : (m.modifyState id f).Arena :=
  h.of_resembles (resembles_modifyVertex (retains_modifyState hf) id)

/-! ## A new region -/

theorem region?_pushRegion (s : VertexId) (name : String) (r : RegionId) :
    (m.pushRegion s name).region? r =
      if r = ⟨m.regions.size⟩ then some { name, parent := s } else m.region? r := by
  unfold region? pushRegion
  simp only [modifyState, modifyVertex, Array.getElem?_push]
  by_cases hr : r = ⟨m.regions.size⟩
  · subst hr; simp
  · have : r.index ≠ m.regions.size := fun e => hr (by cases r; simp_all)
    simp [hr, this]

theorem region?_size : m.region? ⟨m.regions.size⟩ = none := by simp [region?]

theorem owner?_pushRegion (s : VertexId) (name : String) (r : RegionId) :
    (m.pushRegion s name).owner? r = if r = ⟨m.regions.size⟩ then some s else m.owner? r := by
  unfold owner?; rw [region?_pushRegion]; split <;> rfl

theorem verticesOf_pushRegion (s : VertexId) (name : String) (r : RegionId) :
    (m.pushRegion s name).verticesOf r = m.verticesOf r := by
  unfold verticesOf; rw [region?_pushRegion]; split
  · rename_i hr; subst hr; simp [region?_size]
  · rfl

theorem vertex?_pushRegion (s : VertexId) (name : String) (v : VertexId) :
    (m.pushRegion s name).vertex? v = (m.modifyState s fun content =>
      { content with regions := content.regions ++ [⟨m.regions.size⟩] }).vertex? v := rfl

theorem regionsOf_pushRegion {s : VertexId} (hs : m.isState s = true) (name : String) (v : VertexId) :
    (m.pushRegion s name).regionsOf v =
      if v = s then m.regionsOf v ++ [⟨m.regions.size⟩] else m.regionsOf v := by
  unfold regionsOf; rw [vertex?_pushRegion]
  unfold modifyState; rw [vertex?_modifyVertex]
  by_cases hv : v = s
  · subst hv
    obtain ⟨record, content, hr, hf⟩ := isState_iff.mp hs
    simp [hr, hf, Vertex.regions]
  · simp [hv]

theorem arena_pushRegion (h : m.Arena) {s : VertexId} (hs : m.isState s = true) (name : String) :
    (m.pushRegion s name).Arena := by
  have hp := fun v => parent?_modifyState (m := m) s v fun content =>
    { content with regions := content.regions ++ [⟨m.regions.size⟩] }
  have hst := fun v => isState_modifyState (m := m) s v fun content =>
    { content with regions := content.regions ++ [⟨m.regions.size⟩] }
  have hout := fun v => outgoing_modifyState (m := m) s v fun content =>
    { content with regions := content.regions ++ [⟨m.regions.size⟩] }
  have hsome := fun v => vertex?_isSome_modifyState (m := m) s v fun content =>
    { content with regions := content.regions ++ [⟨m.regions.size⟩] }
  have hnew : ∀ v, (⟨m.regions.size⟩ : RegionId) ∉ m.regionsOf v := by
    intro v hm
    have := h.mem_regionsOf.mp hm
    simp [owner?, region?_size] at this
  -- Only `s` lists the new region, and nothing else has changed; the lists of regions are all there is to look at.
  constructor
  · exact (hst root).trans h.isState_root
  · exact (hp root).trans h.parent?_root
  · intro v hsv hr
    exact (congrArg Option.isSome (hp v)).trans (h.parent?_of_ne ((hsome v).symm.trans hsv) hr)
  · intro r v; rw [verticesOf_pushRegion, h.mem_verticesOf]; exact iff_of_eq (congrArg (· = some r) (hp v).symm)
  · intro r v
    rw [regionsOf_pushRegion hs, owner?_pushRegion]
    by_cases hr : r = ⟨m.regions.size⟩
    · subst hr
      by_cases hvs : v = s
      · subst hvs; simp
      · simp [hvs, hnew, Ne.symm hvs]
    · by_cases hvs : v = s
      · subst hvs; simp [hr, h.mem_regionsOf]
      · simp [hvs, hr, h.mem_regionsOf]
  · intro r; rw [verticesOf_pushRegion]; exact h.nodup_verticesOf r
  · intro v; rw [regionsOf_pushRegion hs]; split
    · exact List.nodup_append.mpr ⟨h.nodup_regionsOf v, by simp, by
        intro a ha b hb hab; simp only [List.mem_singleton] at hb; subst hb; subst hab; exact hnew v ha⟩
    · exact h.nodup_regionsOf v
  · intro v r o hv' ho
    replace hv' := (hp v).symm.trans hv'
    rw [owner?_pushRegion] at ho
    split at ho
    · rename_i hr; subst hr
      obtain ⟨o', ho'⟩ := h.owner?_of_parent? hv'
      simp [owner?, region?_size] at ho'
    · exact h.owner?_lt hv' ho
  · intro t v; exact (iff_of_eq (congrArg (t ∈ ·) (hout v))).trans h.mem_outgoing
  · intro t record ht; exact (hsome _).trans (h.source_isSome ht)
  · intro t record u ht hu; exact (hsome u).trans (h.target_isSome ht hu)
  · intro t record ht; exact h.internal_iff ht

/-! ## A new vertex -/

theorem vertex?_pushVertex (region : RegionId) (name : String) (form : Form μ δ) (v : VertexId) :
    (m.pushVertex region name form).vertex? v =
      if v = ⟨m.vertices.size⟩ then some { name, parent := some region, form } else m.vertex? v := by
  unfold vertex? pushVertex
  simp only [Array.getElem?_push]
  by_cases hv : v = ⟨m.vertices.size⟩
  · subst hv; simp
  · have : v.index ≠ m.vertices.size := fun e => hv (by cases v; simp_all)
    simp [hv, this]

theorem vertex?_size : m.vertex? ⟨m.vertices.size⟩ = none := by simp [vertex?]

theorem region?_pushVertex (region : RegionId) (name : String) (form : Form μ δ) (r : RegionId) :
    (m.pushVertex region name form).region? r = if r = region then
      (m.region? r).map fun record => { record with vertices := record.vertices ++ [⟨m.vertices.size⟩] }
    else m.region? r := by
  unfold region? pushVertex
  simp only [Array.getElem?_modify]
  by_cases hr : r = region
  · subst hr; simp
  · have : region.index ≠ r.index := fun e => hr (by cases r; cases region; simp_all)
    simp [hr, this]

theorem verticesOf_pushVertex {region : RegionId} (hr : (m.region? region).isSome) (name : String) (form : Form μ δ)
    (r : RegionId) : (m.pushVertex region name form).verticesOf r =
      if r = region then m.verticesOf r ++ [⟨m.vertices.size⟩] else m.verticesOf r := by
  unfold verticesOf; rw [region?_pushVertex]
  by_cases h : r = region
  · subst h
    obtain ⟨record, hrec⟩ := Option.isSome_iff_exists.mp hr
    simp [hrec]
  · simp [h]

theorem arena_pushVertex (h : m.Arena) {region : RegionId} (hr : (m.region? region).isSome) (name : String)
    {form : Form μ δ} (hform : ∀ content, form = .state content → content.regions = []) :
    (m.pushVertex region name form).Arena := by
  have hv := fun v => vertex?_pushVertex (m := m) region name form v
  have hne : ∀ {v}, (m.vertex? v).isSome → v ≠ ⟨m.vertices.size⟩ := by
    rintro v hv rfl; simp [vertex?_size] at hv
  have hold : ∀ {v}, (m.vertex? v).isSome → (m.pushVertex region name form).vertex? v = m.vertex? v := by
    intro v hs; rw [hv, if_neg (hne hs)]
  have hp : ∀ v, (m.pushVertex region name form).parent? v =
      if v = ⟨m.vertices.size⟩ then some region else m.parent? v := by
    intro v; unfold parent?; rw [hv]; split <;> simp
  have howner : ∀ r, (m.pushVertex region name form).owner? r = m.owner? r := by
    intro r; unfold owner?; rw [region?_pushVertex]; split
    · cases m.region? r <;> rfl
    · rfl
  have hreg : ∀ v, (m.pushVertex region name form).regionsOf v = m.regionsOf v := by
    intro v; unfold regionsOf; rw [hv]; split
    · rename_i hv'; subst hv'
      cases hf : form with
      | pseudo kind => simp [vertex?_size, Vertex.regions]
      | state content => simp [vertex?_size, Vertex.regions, hform content hf]
    · rfl
  have hout : ∀ v, (m.pushVertex region name form).outgoing v = m.outgoing v := by
    intro v; unfold outgoing; rw [hv]; split
    · rename_i hv'; subst hv'; simp [vertex?_size]
    · rfl
  have hnone : ∀ {v r}, m.parent? v = some r → v ≠ ⟨m.vertices.size⟩ :=
    fun hpv => hne (vertex?_isSome_of_parent? hpv)
  have hnew : ∀ r, (⟨m.vertices.size⟩ : VertexId) ∉ m.verticesOf r := by
    intro r hm; exact hnone (h.mem_verticesOf.mp hm) rfl
  have hsome : ∀ {v}, (m.vertex? v).isSome → ((m.pushVertex region name form).vertex? v).isSome := by
    intro v hs; rw [hold hs]; exact hs
  -- The new vertex is younger than all others, owns nothing and is listed by one region; the others are what they were.
  constructor
  · unfold isState; rw [hold h.vertex?_root_isSome]; exact h.isState_root
  · rw [hp, if_neg (hne h.vertex?_root_isSome)]; exact h.parent?_root
  · intro v hs hroot; rw [hp]; split
    · rfl
    · rename_i hv'; rw [hv, if_neg hv'] at hs; exact h.parent?_of_ne hs hroot
  · intro r v
    rw [verticesOf_pushVertex hr, hp]
    by_cases hv' : v = ⟨m.vertices.size⟩
    · subst hv'
      by_cases hrr : r = region
      · subst hrr; simp
      · simp [hrr, hnew, Ne.symm hrr]
    · by_cases hrr : r = region
      · subst hrr; simp [hv', h.mem_verticesOf]
      · simp [hrr, hv', h.mem_verticesOf]
  · intro r v; rw [hreg, howner]; exact h.mem_regionsOf
  · intro r; rw [verticesOf_pushVertex hr]; split
    · exact List.nodup_append.mpr ⟨h.nodup_verticesOf r, by simp, by
        intro a ha b hb hab; simp only [List.mem_singleton] at hb; subst hb; subst hab; exact hnew r ha⟩
    · exact h.nodup_verticesOf r
  · intro v; rw [hreg]; exact h.nodup_regionsOf v
  · intro v r o hv' ho
    rw [hp] at hv'; rw [howner] at ho
    split at hv'
    · rename_i hvn; subst hvn
      exact vertex?_isSome_iff.mp (vertex?_isSome_of_isState (h.isState_of_owner? ho))
    · exact h.owner?_lt hv' ho
  · intro t v; rw [hout]; exact h.mem_outgoing
  · intro t record ht; exact hsome (h.source_isSome ht)
  · intro t record u ht hu; exact hsome (h.target_isSome ht hu)
  · intro t record ht; exact h.internal_iff ht

/-! ## A new transition -/

theorem vertex?_pushTransition (t : Transition μ δ) (v : VertexId) :
    ∃ incoming, (m.pushTransition t).vertex? v = (m.vertex? v).map fun record =>
      { record with
        outgoing := if v = t.source then record.outgoing ++ [⟨m.transitions.size⟩] else record.outgoing
        incoming := incoming } := by
  have hv : ({ m with transitions := m.transitions.push t } : Model μ δ).vertex? v = m.vertex? v := rfl
  refine ⟨(((m.pushTransition t).vertex? v).map (·.incoming)).getD [], ?_⟩
  unfold pushTransition
  cases t.target with
  | none =>
    simp only [vertex?_modifyVertex, hv]
    cases m.vertex? v with
    | none => simp
    | some record => by_cases hs : v = t.source <;> simp [hs]
  | some u =>
    simp only [vertex?_modifyVertex, hv]
    cases m.vertex? v with
    | none => simp
    | some record =>
      by_cases hs : v = t.source
      · by_cases hu : v = u
        · simp only [if_pos hs, if_pos hu]; rfl
        · simp only [if_pos hs, if_neg hu]; rfl
      · by_cases hu : v = u
        · simp only [if_neg hs, if_pos hu]; rfl
        · simp only [if_neg hs, if_neg hu]; rfl

theorem transition?_pushTransition (t : Transition μ δ) (id : TransitionId) :
    (m.pushTransition t).transition? id = if id = ⟨m.transitions.size⟩ then some t else m.transition? id := by
  have : (m.pushTransition t).transitions = m.transitions.push t := by
    unfold pushTransition; cases t.target <;> rfl
  unfold transition?
  rw [this, Array.getElem?_push]
  by_cases hid : id = ⟨m.transitions.size⟩
  · subst hid; simp
  · have : id.index ≠ m.transitions.size := fun e => hid (by cases id; simp_all)
    simp [hid, this]

theorem transition?_size : m.transition? ⟨m.transitions.size⟩ = none := by simp [transition?]

theorem region?_pushTransition (t : Transition μ δ) (r : RegionId) :
    (m.pushTransition t).region? r = m.region? r := by
  unfold pushTransition; cases t.target <;> rfl

theorem arena_pushTransition (h : m.Arena) {t : Transition μ δ} (hs : (m.vertex? t.source).isSome)
    (ht : ∀ u, t.target = some u → (m.vertex? u).isSome) (hk : t.kind = .internal ↔ t.target = none) :
    (m.pushTransition t).Arena := by
  have hsome : ∀ v, ((m.pushTransition t).vertex? v).isSome = (m.vertex? v).isSome := by
    intro v; obtain ⟨inc, hv⟩ := vertex?_pushTransition (m := m) t v; rw [hv]; simp
  have hp : ∀ v, (m.pushTransition t).parent? v = m.parent? v := by
    intro v; obtain ⟨inc, hv⟩ := vertex?_pushTransition (m := m) t v
    unfold parent?; rw [hv]; cases m.vertex? v <;> rfl
  have hst : ∀ v, (m.pushTransition t).isState v = m.isState v := by
    intro v; obtain ⟨inc, hv⟩ := vertex?_pushTransition (m := m) t v
    unfold isState; rw [hv]; cases m.vertex? v <;> rfl
  have hreg : ∀ v, (m.pushTransition t).regionsOf v = m.regionsOf v := by
    intro v; obtain ⟨inc, hv⟩ := vertex?_pushTransition (m := m) t v
    unfold regionsOf; rw [hv]; cases m.vertex? v <;> rfl
  have hout : ∀ v, (m.pushTransition t).outgoing v =
      if v = t.source then m.outgoing v ++ [⟨m.transitions.size⟩] else m.outgoing v := by
    intro v; obtain ⟨inc, hv⟩ := vertex?_pushTransition (m := m) t v
    unfold outgoing; rw [hv]
    cases hr : m.vertex? v with
    | none => by_cases hvs : v = t.source <;> simp_all
    | some record => by_cases hvs : v = t.source <;> simp [hvs]
  have hverts : ∀ r, (m.pushTransition t).verticesOf r = m.verticesOf r := by
    intro r; unfold verticesOf; rw [region?_pushTransition]
  have howner : ∀ r, (m.pushTransition t).owner? r = m.owner? r := by
    intro r; unfold owner?; rw [region?_pushTransition]
  have htr := transition?_pushTransition (m := m) t
  -- Places are what they were; of the source, the list of transitions has grown by the new one.
  constructor
  · rw [hst]; exact h.isState_root
  · rw [hp]; exact h.parent?_root
  · intro v hv hr; rw [hp]; rw [hsome] at hv; exact h.parent?_of_ne hv hr
  · intro r v; rw [hverts, hp]; exact h.mem_verticesOf
  · intro r v; rw [hreg, howner]; exact h.mem_regionsOf
  · intro r; rw [hverts]; exact h.nodup_verticesOf r
  · intro v; rw [hreg]; exact h.nodup_regionsOf v
  · intro v r o hv ho; rw [hp] at hv; rw [howner] at ho; exact h.owner?_lt hv ho
  · intro id v
    have hnew : (⟨m.transitions.size⟩ : TransitionId) ∉ m.outgoing v := by
      intro hm; obtain ⟨record, hrec, _⟩ := h.source_of_mem_outgoing hm; simp [transition?_size] at hrec
    rw [hout, htr]
    by_cases hid : id = ⟨m.transitions.size⟩
    · subst hid
      by_cases hv : v = t.source
      · subst hv; simp
      · simp [hv, hnew, Ne.symm hv]
    · by_cases hv : v = t.source
      · subst hv; simp [hid, h.mem_outgoing]
      · simp [hv, hid, h.mem_outgoing]
  · intro id record hid
    rw [htr] at hid; rw [hsome]
    split at hid
    · cases hid; exact hs
    · exact h.source_isSome hid
  · intro id record u hid hu
    rw [htr] at hid; rw [hsome]
    split at hid
    · cases hid; exact ht u hu
    · exact h.target_isSome hid hu
  · intro id record hid
    rw [htr] at hid
    split at hid
    · cases hid; exact hk
    · exact h.internal_iff hid

/-! ## Other changes -/

theorem transition?_modify (id t : TransitionId) (f : Transition μ δ → Transition μ δ) :
    ({ m with transitions := m.transitions.modify id.index f } : Model μ δ).transition? t =
      if t = id then (m.transition? t).map f else m.transition? t := by
  unfold transition?
  rw [Array.getElem?_modify]
  by_cases hid : t = id
  · subst hid; simp
  · have : id.index ≠ t.index := fun e => hid (by cases t; cases id; simp_all)
    simp [hid, this]

theorem arena_modifyTransition (h : m.Arena) (id : TransitionId) (f : Transition μ δ → Transition μ δ)
    (hf : ∀ t, (f t).source = t.source ∧ (f t).target = t.target ∧ (f t).kind = t.kind) :
    Arena { m with transitions := m.transitions.modify id.index f } := by
  have ht := fun t => transition?_modify (m := m) id t f
  refine h.of_resembles ⟨fun _ => rfl, fun _ => rfl, fun _ => rfl, fun _ => rfl, fun _ => rfl, fun _ => rfl,
    fun _ => rfl, ?_, ?_⟩
  · intro t; rw [ht]; split
    · cases m.transition? t <;> simp [hf]
    · rfl
  · intro t record hrec
    rw [ht] at hrec
    split at hrec
    · obtain ⟨old, hold, rfl⟩ := Option.map_eq_some_iff.mp hrec
      exact ⟨old, hold, hf old⟩
    · exact ⟨record, hrec, rfl, rfl, rfl⟩

theorem arena_rename (h : m.Arena) (id : VertexId) (name : String) :
    (m.modifyVertex id fun record => { record with name }).Arena :=
  have hf : Retains fun record : Vertex μ δ => { record with name } :=
    ⟨fun _ => rfl, fun _ => rfl, fun _ => rfl, fun _ => rfl⟩
  h.of_resembles (resembles_modifyVertex hf id)

theorem arena_ofName (name : String) : (ofName name : Model μ δ).Arena := by
  have hv : ∀ v, (ofName name : Model μ δ).vertex? v =
      if v = root then some { name, parent := none, form := .state {} } else none := by
    intro v
    unfold vertex? ofName root
    by_cases hv : v = ⟨0⟩
    · subst hv; rfl
    · have : v.index ≠ 0 := fun e => hv (by cases v; simp_all)
      simp [hv, this]
  have hr : ∀ r, (ofName name : Model μ δ).region? r = none := fun r => by simp [region?, ofName]
  have ht : ∀ t, (ofName name : Model μ δ).transition? t = none := fun t => by simp [transition?, ofName]
  constructor
  · unfold isState; rw [hv]; rfl
  · unfold parent?; rw [hv]; rfl
  · intro v hs hne; rw [hv, if_neg hne] at hs; cases hs
  · intro r v; unfold verticesOf parent?; rw [hr, hv]; split <;> simp
  · intro r v; unfold regionsOf owner?; rw [hr, hv]; split <;> simp [Vertex.regions]
  · intro r; unfold verticesOf; rw [hr]; exact List.nodup_nil
  · intro v; unfold regionsOf; rw [hv]; split <;> simp [Vertex.regions]
  · intro v r o _ ho; unfold owner? at ho; rw [hr] at ho; cases ho
  · intro t v; unfold outgoing; rw [ht, hv]; split <;> simp
  · intro t record hrec; rw [ht] at hrec; cases hrec
  · intro t record u hrec; rw [ht] at hrec; cases hrec
  · intro t record hrec; rw [ht] at hrec; cases hrec

theorem acts_ofName (A : Action μ δ → Prop) (name : String) : (ofName name : Model μ δ).Acts A where
  entry := by
    intro v record content hv hf a ha
    have hmem : record ∈ (ofName name : Model μ δ).vertices := Array.mem_of_getElem? hv
    simp only [ofName, List.mem_toArray, List.mem_singleton] at hmem
    subst hmem; cases hf; cases ha
  exit := by
    intro v record content hv hf a ha
    have hmem : record ∈ (ofName name : Model μ δ).vertices := Array.mem_of_getElem? hv
    simp only [ofName, List.mem_toArray, List.mem_singleton] at hmem
    subst hmem; cases hf; cases ha
  effect := by intro t record ht; simp [transition?, ofName] at ht

theorem tame_ofName (name : String) : (ofName name : Model μ δ).Tame := tame_iff.mpr (acts_ofName Action.Tame name)

/-! ## Changes -/

/-- One change in the course of a building operation whose actions satisfy `A`. -/
inductive Change (A : Action μ δ → Prop) : Model μ δ → Model μ δ → Prop
  | region {m : Model μ δ} {s : VertexId} (name : String) (hs : m.isState s = true) : Change A m (m.pushRegion s name)
  | vertex {m : Model μ δ} {r : RegionId} (name : String) (form : Form μ δ) (hr : (m.region? r).isSome)
      (hn : ∀ w, m.parent? w = some r → m.name? w ≠ some name)
      (hform : ∀ content, form = .state content → content.regions = [] ∧ content.entry = [] ∧ content.exit = []) :
      Change A m (m.pushVertex r name form)
  | name {m : Model μ δ} (v : VertexId) (name : String)
      (hn : ∀ r w, m.parent? v = some r → m.parent? w = some r → w ≠ v → m.name? w ≠ some name) :
      Change A m (m.modifyVertex v fun record => { record with name })
  | entry {m : Model μ δ} (s : VertexId) {a : Action μ δ} (ha : A a) :
      Change A m (m.modifyState s fun content => { content with entry := content.entry ++ [a] })
  | exit {m : Model μ δ} (s : VertexId) {a : Action μ δ} (ha : A a) :
      Change A m (m.modifyState s fun content => { content with exit := content.exit ++ [a] })
  | transition {m : Model μ δ} {t : Transition μ δ} (hs : (m.vertex? t.source).isSome)
      (hu : ∀ u, t.target = some u → (m.vertex? u).isSome) (hk : t.kind = .internal ↔ t.target = none)
      (ha : ∀ a ∈ t.effects, A a) : Change A m (m.pushTransition t)
  | effect {m : Model μ δ} (t : TransitionId) {a : Action μ δ} (ha : A a) :
      Change A m { m with
        transitions := m.transitions.modify t.index fun record => { record with effects := record.effects ++ [a] } }

variable {A : Action μ δ → Prop} {m' : Model μ δ}

theorem Change.arena (hc : Change A m m') (h : m.Arena) : m'.Arena := by
  cases hc with
  | region name hs => exact arena_pushRegion h hs name
  | vertex name form hr _ hform => exact arena_pushVertex h hr name fun content hf => (hform content hf).1
  | name v name _ => exact arena_rename h v name
  | entry s _ => exact arena_modifyState h s fun _ => rfl
  | exit s _ => exact arena_modifyState h s fun _ => rfl
  | transition hs hu hk _ => exact arena_pushTransition h hs hu hk
  | effect t _ => exact arena_modifyTransition h t _ fun _ => ⟨rfl, rfl, rfl⟩

/-! ## What a change leaves as it was -/

structure Keeps (A : Action μ δ → Prop) (record record' : Vertex μ δ) : Prop where
  parent : record'.parent = record.parent
  isState : record'.isState = record.isState
  entry : ∀ content', record'.form = .state content' →
    ∀ a ∈ content'.entry, A a ∨ ∃ content, record.form = .state content ∧ a ∈ content.entry
  exit : ∀ content', record'.form = .state content' →
    ∀ a ∈ content'.exit, A a ∨ ∃ content, record.form = .state content ∧ a ∈ content.exit

theorem keeps_of_form {record record' : Vertex μ δ} (hp : record'.parent = record.parent)
    (hf : record'.form = record.form) : Keeps A record record' where
  parent := hp
  isState := by simp [Vertex.isState, Vertex.state?, hf]
  entry := fun content hc a ha => Or.inr ⟨content, hf ▸ hc, ha⟩
  exit := fun content hc a ha => Or.inr ⟨content, hf ▸ hc, ha⟩

theorem keeps_modifyState {f : State μ δ → State μ δ}
    (hentry : ∀ content, ∀ a ∈ (f content).entry, A a ∨ a ∈ content.entry)
    (hexit : ∀ content, ∀ a ∈ (f content).exit, A a ∨ a ∈ content.exit) (record : Vertex μ δ) :
    Keeps A record (match record.form with
      | .state content => { record with form := .state (f content) }
      | .pseudo _ => record) := by
  cases hf : record.form with
  | pseudo kind => exact keeps_of_form rfl rfl
  | state content =>
    refine ⟨rfl, by simp [Vertex.isState, Vertex.state?, hf], ?_, ?_⟩
    · rintro _ ⟨⟩ a ha; exact (hentry content a ha).imp id fun ha => ⟨content, hf, ha⟩
    · rintro _ ⟨⟩ a ha; exact (hexit content a ha).imp id fun ha => ⟨content, hf, ha⟩

theorem exists_modifyVertex {f : Vertex μ δ → Vertex μ δ} (hf : ∀ record, Keeps A record (f record)) (id : VertexId)
    {v : VertexId} {record : Vertex μ δ} (hv : m.vertex? v = some record) :
    ∃ record', (m.modifyVertex id f).vertex? v = some record' ∧ Keeps A record record' := by
  rw [vertex?_modifyVertex, hv]
  split
  · exact ⟨f record, rfl, hf record⟩
  · exact ⟨record, rfl, keeps_of_form rfl rfl⟩

theorem exists_modifyState {f : State μ δ → State μ δ}
    (hentry : ∀ content, ∀ a ∈ (f content).entry, A a ∨ a ∈ content.entry)
    (hexit : ∀ content, ∀ a ∈ (f content).exit, A a ∨ a ∈ content.exit) (id : VertexId) {v : VertexId}
    {record : Vertex μ δ} (hv : m.vertex? v = some record) :
    ∃ record', (m.modifyState id f).vertex? v = some record' ∧ Keeps A record record' :=
  exists_modifyVertex (keeps_modifyState hentry hexit) id hv

namespace Change

theorem exists_vertex? (hc : Change A m m') {v : VertexId} {record : Vertex μ δ} (hv : m.vertex? v = some record) :
    ∃ record', m'.vertex? v = some record' ∧ Keeps A record record' := by
  cases hc with
  | region name hs =>
    rw [vertex?_pushRegion]
    refine exists_modifyState ?_ ?_ _ hv <;> exact fun _ _ => Or.inr
  | vertex name form _ _ _ =>
    rw [vertex?_pushVertex, if_neg (by rintro rfl; rw [vertex?_size] at hv; cases hv)]
    exact ⟨record, hv, keeps_of_form rfl rfl⟩
  | name w name _ =>
    refine exists_modifyVertex ?_ w hv
    exact fun _ => keeps_of_form rfl rfl
  | entry s ha =>
    refine exists_modifyState ?_ ?_ s hv
    · intro _ a hm
      rcases List.mem_append.mp hm with hm | hm
      · exact Or.inr hm
      · rw [List.mem_singleton] at hm; exact Or.inl (hm ▸ ha)
    · exact fun _ _ => Or.inr
  | exit s ha =>
    refine exists_modifyState ?_ ?_ s hv
    · exact fun _ _ => Or.inr
    · intro _ a hm
      rcases List.mem_append.mp hm with hm | hm
      · exact Or.inr hm
      · rw [List.mem_singleton] at hm; exact Or.inl (hm ▸ ha)
  | @transition t _ _ _ _ =>
    obtain ⟨incoming, ht⟩ := vertex?_pushTransition (m := m) t v
    rw [ht, hv]
    exact ⟨_, rfl, keeps_of_form rfl rfl⟩
  | effect t _ => exact ⟨record, hv, keeps_of_form rfl rfl⟩

theorem no_actions (hc : Change A m m') {v : VertexId} {record : Vertex μ δ} {content : State μ δ}
    (hv : m.vertex? v = none) (hv' : m'.vertex? v = some record) (hf : record.form = .state content) :
    content.entry = [] ∧ content.exit = [] := by
  have hnone : ∀ id f, (m.modifyVertex id f).vertex? v = none := by
    intro id f; rw [vertex?_modifyVertex, hv]; split <;> rfl
  cases hc with
  | region name hs => rw [vertex?_pushRegion, modifyState, hnone] at hv'; cases hv'
  | vertex name form _ _ hform =>
    rw [vertex?_pushVertex] at hv'
    split at hv'
    · cases hv'; exact (hform content hf).2
    · rw [hv] at hv'; cases hv'
  | name w name _ => rw [hnone] at hv'; cases hv'
  | entry s _ => rw [modifyState, hnone] at hv'; cases hv'
  | exit s _ => rw [modifyState, hnone] at hv'; cases hv'
  | @transition t _ _ _ _ =>
    obtain ⟨incoming, ht⟩ := vertex?_pushTransition (m := m) t v
    rw [ht, hv] at hv'; cases hv'
  | effect t _ => exact absurd (hv.symm.trans hv') (by simp)

theorem parent? (hc : Change A m m') {v : VertexId} {r : RegionId} (hv : m.parent? v = some r) :
    m'.parent? v = some r := by
  obtain ⟨record, hrec, hp⟩ := parent?_eq_some.mp hv
  obtain ⟨record', hrec', hk⟩ := hc.exists_vertex? hrec
  exact parent?_eq_some.mpr ⟨record', hrec', hk.parent.trans hp⟩

theorem isState (hc : Change A m m') {v : VertexId} (hv : m.isState v = true) : m'.isState v = true := by
  obtain ⟨record, hrec⟩ := Option.isSome_iff_exists.mp (vertex?_isSome_of_isState hv)
  obtain ⟨record', hrec', hk⟩ := hc.exists_vertex? hrec
  simp only [Model.isState, hrec, Option.any_some] at hv
  simp [Model.isState, hrec', hk.isState, hv]

theorem acts (hc : Change A m m') (h : m.Acts A) : m'.Acts A where
  entry := by
    intro v record' content' hv' hf' a ha
    cases hv : m.vertex? v with
    | none => rw [(hc.no_actions hv hv' hf').1] at ha; cases ha
    | some record =>
      obtain ⟨_, hv'', hk⟩ := hc.exists_vertex? hv
      rw [hv'] at hv''; cases hv''
      rcases hk.entry content' hf' a ha with ha | ⟨content, hf, ha⟩
      · exact ha
      · exact h.entry hv hf a ha
  exit := by
    intro v record' content' hv' hf' a ha
    cases hv : m.vertex? v with
    | none => rw [(hc.no_actions hv hv' hf').2] at ha; cases ha
    | some record =>
      obtain ⟨_, hv'', hk⟩ := hc.exists_vertex? hv
      rw [hv'] at hv''; cases hv''
      rcases hk.exit content' hf' a ha with ha | ⟨content, hf, ha⟩
      · exact ha
      · exact h.exit hv hf a ha
  effect := by
    intro t record ht
    cases hc with
    | transition _ _ _ he =>
      rw [transition?_pushTransition] at ht
      split at ht
      · cases ht; exact he
      · exact h.effect ht
    | effect t' ha' =>
      rw [transition?_modify] at ht
      split at ht
      · obtain ⟨old, hold, rfl⟩ := Option.map_eq_some_iff.mp ht
        intro a ha
        rcases List.mem_append.mp ha with ha | ha
        · exact h.effect hold a ha
        · rw [List.mem_singleton] at ha; exact ha ▸ ha'
      · exact h.effect ht
    | _ => exact h.effect ht

theorem tame (hc : Change Action.Tame m m') (h : m.Tame) : m'.Tame := tame_iff.mpr (hc.acts (tame_iff.mp h))

end Change

end Model

end Statechart
